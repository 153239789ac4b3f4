import Uv.DistributionTypes.PrioritizedDist

/-!
# The first file of a prioritized distribution

Inserting a file respects its compatibility; starting with it does not.  What a file adds
to the markers and hashes when it is inserted adds up over the files, and does not touch
the other fields, so both ways differ by what the first file should not have added.
-/

namespace Uv.DistributionTypes

variable {F HashDigest Marker : Type} [MarkerAlgebra Marker] [DecidableEq Marker]

/-- A file with its hashes and its compatibility. -/
inductive DistFile (F HashDigest : Type) where
  | built (dist : RegistryBuiltWheel F) (hashes : List HashDigest)
      (compatibility : WheelCompatibility)
  | source (dist : RegistrySourceDist F) (hashes : List HashDigest)
      (compatibility : SourceDistCompatibility)

namespace DistFile

def hashes : DistFile F HashDigest → List HashDigest
  | built _ hashes _ => hashes
  | source _ hashes _ => hashes

def isCompatible : DistFile F HashDigest → Bool
  | built _ _ compatibility => compatibility.isCompatible
  | source _ _ compatibility => compatibility.isCompatible

def isExcluded : DistFile F HashDigest → Bool
  | built _ _ compatibility => compatibility.isExcluded
  | source _ _ compatibility => compatibility.isExcluded

/-- The markers for which the file can be used. -/
def markers : DistFile F HashDigest → Marker
  | built dist _ _ => impliedMarkers dist.filename
  | source _ _ _ => ⊤

/-- Whether the file is a compatible source distribution. -/
def isCompatibleSource : DistFile F HashDigest → Bool
  | built _ _ _ => false
  | source _ _ compatibility => compatibility.isCompatible

/-- The implied markers of the compatible wheels. -/
def wheelMarkers : List (DistFile F HashDigest) → Marker
  | [] => ⊥
  | built dist _ compatibility :: rest =>
      if compatibility.isCompatible then impliedMarkers dist.filename ⊔ wheelMarkers rest
      else wheelMarkers rest
  | source _ _ _ :: rest => wheelMarkers rest

/-- What the file adds to the markers when it is inserted. -/
def addedMarkers (file : DistFile F HashDigest) : Marker :=
  if file.isCompatible then file.markers else ⊥

/-- What the file adds to the hashes when it is inserted. -/
def addedHashes (file : DistFile F HashDigest) : List HashDigest :=
  if file.isExcluded then [] else file.hashes

/-- The markers of all compatible files. -/
def compatibleMarkers (files : List (DistFile F HashDigest)) : Marker :=
  files.foldr (fun file marker => file.addedMarkers ⊔ marker) ⊥

end DistFile

namespace PrioritizedDist

open DistFile

/-- `from_built` or `from_source`. -/
def ofFile : DistFile F HashDigest → PrioritizedDist F HashDigest Marker
  | .built dist hashes compatibility => fromBuilt dist hashes compatibility
  | .source dist hashes compatibility => fromSource dist hashes compatibility

/-- `insert_built` or `insert_source`. -/
def insert (self : PrioritizedDist F HashDigest Marker) :
    DistFile F HashDigest → PrioritizedDist F HashDigest Marker
  | .built dist hashes compatibility => self.insertBuilt dist hashes compatibility
  | .source dist hashes compatibility => self.insertSource dist hashes compatibility

def insertAll (self : PrioritizedDist F HashDigest Marker)
    (files : List (DistFile F HashDigest)) : PrioritizedDist F HashDigest Marker :=
  files.foldl insert self

variable {self : PrioritizedDist F HashDigest Marker} {file first : DistFile F HashDigest}
  {files rest : List (DistFile F HashDigest)}

/-! ## One file -/

theorem insert_markers : (self.insert file).markers = self.markers ⊔ file.addedMarkers := by
  cases file with
  | built dist hashes compatibility =>
      cases hcompatible : compatibility.isCompatible with
      | false => simp [insert, insertBuilt, addedMarkers, isCompatible, hcompatible]
      | true =>
          by_cases htop : self.markers = ⊤
          · simp [insert, insertBuilt, htop]
          · simp [insert, insertBuilt, addedMarkers, isCompatible, hcompatible, htop,
              DistFile.markers]
  | source dist hashes compatibility =>
      cases hcompatible : compatibility.isCompatible <;>
        simp [insert, insertSource, addedMarkers, isCompatible, hcompatible, DistFile.markers]

theorem insert_hashes : (self.insert file).hashes = self.hashes ++ file.addedHashes := by
  cases file with
  | built dist hashes compatibility =>
      cases hexcluded : compatibility.isExcluded <;>
        simp [insert, insertBuilt, addedHashes, isExcluded, hexcluded, DistFile.hashes]
  | source dist hashes compatibility =>
      cases hexcluded : compatibility.isExcluded <;>
        simp [insert, insertSource, addedHashes, isExcluded, hexcluded, DistFile.hashes]

/-- The files that were kept, and the best wheel. -/
def choice (self : PrioritizedDist F HashDigest Marker) :
    Option (RegistrySourceDist F × SourceDistCompatibility) × Option ℕ ×
      List (RegistryBuiltWheel F × WheelCompatibility) :=
  (self.source, self.bestWheelIndex, self.wheels)

/-- The choice does not depend on markers and hashes. -/
theorem insert_choice {self other : PrioritizedDist F HashDigest Marker}
    (hchoice : self.choice = other.choice) :
    (self.insert file).choice = (other.insert file).choice := by
  simp only [choice, Prod.mk.injEq] at hchoice
  obtain ⟨hsource, hbest, hwheels⟩ := hchoice
  cases file <;>
    simp [choice, insert, insertBuilt, insertSource, bestWheel, hsource, hbest, hwheels]

theorem ofFile_choice : (ofFile file : PrioritizedDist F HashDigest Marker).choice =
    (default.insert file : PrioritizedDist F HashDigest Marker).choice := by
  cases file <;> rfl

/-! ## Many files -/

theorem insertAll_markers :
    (self.insertAll files).markers = self.markers ⊔ compatibleMarkers files := by
  induction files generalizing self with
  | nil => simp [insertAll, compatibleMarkers]
  | cons file rest ih =>
      calc (self.insertAll (file :: rest)).markers
          = ((self.insert file).insertAll rest).markers := rfl
        _ = (self.insert file).markers ⊔ compatibleMarkers rest := ih
        _ = self.markers ⊔ (file.addedMarkers ⊔ compatibleMarkers rest) := by
            rw [insert_markers, sup_assoc]

theorem insertAll_hashes :
    (self.insertAll files).hashes = self.hashes ++ files.flatMap addedHashes := by
  induction files generalizing self with
  | nil => simp [insertAll]
  | cons file rest ih =>
      calc (self.insertAll (file :: rest)).hashes
          = ((self.insert file).insertAll rest).hashes := rfl
        _ = (self.insert file).hashes ++ rest.flatMap addedHashes := ih
        _ = self.hashes ++ (file :: rest).flatMap addedHashes := by
            rw [insert_hashes, List.append_assoc, List.flatMap_cons]

theorem insertAll_choice {self other : PrioritizedDist F HashDigest Marker}
    (hchoice : self.choice = other.choice) :
    (self.insertAll files).choice = (other.insertAll files).choice := by
  induction files generalizing self other with
  | nil => exact hchoice
  | cons file rest ih => exact ih (insert_choice hchoice)

omit [DecidableEq Marker] in
/-- The markers are `TRUE` with a compatible source distribution, and otherwise those of
the compatible wheels. -/
theorem compatibleMarkers_eq : (compatibleMarkers files : Marker) =
    if files.any isCompatibleSource then ⊤ else wheelMarkers files := by
  induction files with
  | nil => rfl
  | cons file rest ih =>
      rw [compatibleMarkers, List.foldr_cons, ← compatibleMarkers, ih]
      cases file with
      | built dist hashes compatibility =>
          cases hcompatible : compatibility.isCompatible <;>
            cases hrest : rest.any isCompatibleSource <;>
            simp [addedMarkers, isCompatible, isCompatibleSource, wheelMarkers, hcompatible, hrest,
              DistFile.markers]
      | source dist hashes compatibility =>
          cases hcompatible : compatibility.isCompatible <;>
            simp [addedMarkers, isCompatible, isCompatibleSource, wheelMarkers, hcompatible,
              DistFile.markers]

omit [MarkerAlgebra Marker] [DecidableEq Marker] in
theorem eq_iff {self other : PrioritizedDist F HashDigest Marker}
    (hchoice : self.choice = other.choice) :
    self = other ↔ self.markers = other.markers ∧ self.hashes = other.hashes := by
  simp only [choice, Prod.mk.injEq] at hchoice
  simp only [PrioritizedDist.ext_iff, hchoice, true_and]
  exact and_comm

theorem started_markers :
    ((ofFile first : PrioritizedDist F HashDigest Marker).insertAll rest).markers =
      first.markers ⊔ compatibleMarkers rest := by
  rw [insertAll_markers]
  cases first <;> rfl

theorem started_hashes :
    ((ofFile first : PrioritizedDist F HashDigest Marker).insertAll rest).hashes =
      first.hashes ++ rest.flatMap addedHashes := by
  rw [insertAll_hashes]
  cases first <;> rfl

theorem inserted_markers :
    (default.insertAll files : PrioritizedDist F HashDigest Marker).markers =
      compatibleMarkers files := by
  rw [insertAll_markers]
  exact bot_sup_eq _

omit [DecidableEq Marker] in
theorem markers_eq_iff :
    first.markers ⊔ compatibleMarkers rest = (compatibleMarkers (first :: rest) : Marker) ↔
      first.isCompatible ∨ (first.markers : Marker) ≤ compatibleMarkers rest := by
  have hcons : (compatibleMarkers (first :: rest) : Marker) =
      first.addedMarkers ⊔ compatibleMarkers rest := rfl
  rw [hcons, addedMarkers]
  cases first.isCompatible <;> simp

theorem hashes_eq_iff :
    first.hashes ++ rest.flatMap addedHashes = (first :: rest).flatMap addedHashes ↔
      (first.isExcluded → first.hashes = []) := by
  rw [List.flatMap_cons, List.append_left_inj, addedHashes]
  cases first.isExcluded <;> simp

/-- Starting with the first file is inserting it, and the markers are `TRUE` exactly with a
compatible source distribution and otherwise those of the compatible wheels, iff the first
file is compatible or adds no markers to the others, an excluded first file has no hashes,
and wheels alone do not support everything. -/
theorem insertAll_ofFile_iff :
    ((ofFile first : PrioritizedDist F HashDigest Marker).insertAll rest =
        default.insertAll (first :: rest) ∧
      (((ofFile first : PrioritizedDist F HashDigest Marker).insertAll rest).markers = ⊤ ↔
        (first :: rest).any isCompatibleSource) ∧
      ((first :: rest).any isCompatibleSource = false →
        ((ofFile first : PrioritizedDist F HashDigest Marker).insertAll rest).markers =
          wheelMarkers (first :: rest))) ↔
      (first.isCompatible ∨ (first.markers : Marker) ≤ compatibleMarkers rest) ∧
      (first.isExcluded → first.hashes = []) ∧
      ((first :: rest).any isCompatibleSource ∨ (wheelMarkers (first :: rest) : Marker) ≠ ⊤) := by
  have hsame : (ofFile first : PrioritizedDist F HashDigest Marker).insertAll rest =
      default.insertAll (first :: rest) ↔
        (first.isCompatible ∨ (first.markers : Marker) ≤ compatibleMarkers rest) ∧
        (first.isExcluded → first.hashes = []) := by
    have hchoice : ((ofFile first : PrioritizedDist F HashDigest Marker).insertAll rest).choice =
        (default.insertAll (first :: rest)).choice := insertAll_choice ofFile_choice
    rw [eq_iff hchoice, started_markers, started_hashes, inserted_markers, markers_eq_iff,
      insertAll_hashes, ← hashes_eq_iff]
    rfl
  constructor
  · intro ⟨heq, htop, hwheels⟩
    obtain ⟨hmarkers, hhashes⟩ := hsame.mp heq
    apply And.intro hmarkers (And.intro hhashes _)
    rw [or_iff_not_imp_left, Bool.not_eq_true]
    intro hany
    rw [← hwheels hany, ne_eq, htop, hany]
    exact Bool.false_ne_true
  · intro ⟨hmarkers, hhashes, hnotTop⟩
    rw [hsame.mpr ⟨hmarkers, hhashes⟩, inserted_markers, compatibleMarkers_eq]
    apply And.intro rfl
    cases hany : (first :: rest).any isCompatibleSource with
    | true => simp
    | false => simpa [hany] using hnotTop

/-- A source distribution that may not be built. -/
def noBuild : DistFile String String :=
  .source ⟨"foo-1.0.tar.gz"⟩ [] (.incompatible .noBuild)

/-- Started with the source distribution, the version supports everything although no file
is compatible; with the source distribution inserted, it supports nothing. -/
theorem ofFile_noBuild :
    (ofFile noBuild : PrioritizedDist String String (Set Pep508.Valuation)).insertAll [] ≠
      default.insertAll [noBuild] ∧
    ((ofFile noBuild : PrioritizedDist String String (Set Pep508.Valuation)).insertAll []).markers =
      ⊤ ∧
    [noBuild].any isCompatibleSource = false := by
  have hnonempty : Nonempty Pep508.Valuation := ⟨.at (.ofPosition ⊥) (.ofPosition ⊥)⟩
  apply And.intro _ ⟨rfl, rfl⟩
  intro heq
  have hmarkers := congrArg PrioritizedDist.markers heq
  exact absurd hmarkers top_ne_bot

end PrioritizedDist

end Uv.DistributionTypes
