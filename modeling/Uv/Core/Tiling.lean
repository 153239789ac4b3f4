import Uv.Core.Ranges

/-!
# Tilings of an ordered space

A list of intervals tiles the space between two cuts when each one begins where
the one before it stops.  Tiles carry labels; a tiling of the whole space is
then a step function.

Points are known only by the cuts below them.  A value is a point, and so is
an element of a dense order around the values, in which every tile holds a
point.
-/

namespace Uv.Core

variable {C L : Type} [LinearOrder C]

/-! ## Points -/

/-- A place in the order, given by the cuts that lie below it. -/
structure Point (C : Type) [LinearOrder C] [OrderBot C] where
  below : C → Prop
  below_of_le : ∀ {cut cut'}, cut ≤ cut' → below cut' → below cut
  below_bot : below ⊥

namespace Point

variable [OrderBot C]

/-- Whether an upper end lies below the point; the top does not. -/
def belowTop (point : Point C) : WithTop C → Prop
  | ⊤ => False
  | (cut : C) => point.below cut

@[simp]
theorem belowTop_top (point : Point C) : ¬ point.belowTop ⊤ := id

theorem belowTop_of_le (point : Point C) {cut cut' : WithTop C}
    (hle : cut ≤ cut') (hbelow : point.belowTop cut') : point.belowTop cut := by
  cases cut' using WithTop.recTopCoe with
  | top => exact absurd hbelow (belowTop_top point)
  | coe cut' =>
      cases cut using WithTop.recTopCoe with
      | top => exact absurd hle (by simp)
      | coe cut => exact point.below_of_le (WithTop.coe_le_coe.mp hle) hbelow

/-- The point lies in an interval. -/
def In (point : Point C) (cuts : C × WithTop C) : Prop :=
  point.below cuts.1 ∧ ¬ point.belowTop cuts.2

/-- A position, as a point. -/
def ofPosition (position : C) : Point C where
  below cut := cut ≤ position
  below_of_le hle hbelow := hle.trans hbelow
  below_bot := bot_le

theorem ofPosition_in {position : C} {cuts : C × WithTop C} :
    (ofPosition position).In cuts ↔ Between cuts position := by
  unfold In Between
  refine and_congr Iff.rfl ?_
  rw [← not_le, not_iff_not]
  cases cuts.2 using WithTop.recTopCoe with
  | top => simp
  | coe cut => exact WithTop.coe_le_coe.symm

end Point

/-! ## Tilings -/

/-- The intervals lead from `start` to `stop` without gap or overlap. -/
def Tiles : WithTop C → List (C × WithTop C) → WithTop C → Prop
  | start, [], stop => start = stop
  | start, cuts :: rest, stop =>
      start = cuts.1 ∧ (cuts.1 : WithTop C) < cuts.2 ∧ Tiles cuts.2 rest stop

theorem tiles_append {start stop : WithTop C} {left right : List (C × WithTop C)} :
    Tiles start (left ++ right) stop ↔
      ∃ middle, Tiles start left middle ∧ Tiles middle right stop := by
  induction left generalizing start with
  | nil => simp [Tiles]
  | cons cuts rest ih =>
      simp only [List.cons_append, Tiles, ih]
      constructor
      · rintro ⟨hstart, hlt, middle, hleft, hright⟩
        exact ⟨middle, ⟨hstart, hlt, hleft⟩, hright⟩
      · rintro ⟨middle, ⟨hstart, hlt, hleft⟩, hright⟩
        exact ⟨hstart, hlt, middle, hleft, hright⟩

theorem Tiles.le {start stop : WithTop C} {tiles : List (C × WithTop C)}
    (htiles : Tiles start tiles stop) : start ≤ stop := by
  induction tiles generalizing start with
  | nil => exact le_of_eq htiles
  | cons cuts rest ih =>
      obtain ⟨rfl, hlt, hrest⟩ := htiles
      exact hlt.le.trans (ih hrest)

theorem Tiles.nonempty {start stop : WithTop C} {tiles : List (C × WithTop C)}
    (htiles : Tiles start tiles stop) {cuts : C × WithTop C}
    (hcuts : cuts ∈ tiles) :
    (cuts.1 : WithTop C) < cuts.2 ∧ start ≤ cuts.1 ∧ cuts.2 ≤ stop := by
  induction tiles generalizing start with
  | nil => cases hcuts
  | cons first rest ih =>
      obtain ⟨rfl, hlt, hrest⟩ := htiles
      rcases List.mem_cons.mp hcuts with rfl | hcuts
      · exact ⟨hlt, le_rfl, hrest.le⟩
      · obtain ⟨hnonempty, hstart, hstop⟩ := ih hrest hcuts
        exact ⟨hnonempty, hlt.le.trans hstart, hstop⟩

/-- Each tile begins where the one before it stops. -/
theorem Tiles.adjacent {start stop : WithTop C} {tiles : List ((C × WithTop C) × L)}
    (htiles : Tiles start (tiles.map Prod.fst) stop) :
    tiles.IsChain fun tile next => tile.1.2 = (next.1.1 : WithTop C) := by
  induction tiles generalizing start with
  | nil => exact .nil
  | cons tile rest ih =>
      obtain ⟨-, -, hrest⟩ := htiles
      cases rest with
      | nil => exact .singleton _
      | cons next rest => exact .cons_cons hrest.1 (ih hrest)

/-- Sorted and disjoint intervals that cover everything from `start` on are a
tiling. -/
theorem tiles_of_sorted {start : C} {tiles : List (C × WithTop C)}
    (hnonempty : ∀ cuts ∈ tiles, (cuts.1 : WithTop C) < cuts.2)
    (hsorted : tiles.Pairwise fun left right => left.1 ≤ right.1)
    (hdisjoint : tiles.Pairwise fun left right =>
      ∀ position, Between left position → ¬ Between right position)
    (hcover : ∀ position, (∃ cuts ∈ tiles, Between cuts position) ↔
      start ≤ position) :
    Tiles start tiles ⊤ := by
  induction tiles generalizing start with
  | nil => simpa using hcover start
  | cons first rest ih =>
      rw [List.pairwise_cons] at hsorted hdisjoint
      have hself : ∀ cuts ∈ first :: rest, Between cuts cuts.1 :=
        fun cuts hcuts => ⟨le_rfl, hnonempty cuts hcuts⟩
      have hstart : first.1 = start := by
        apply le_antisymm
        · obtain ⟨cuts, hcuts, hbetween⟩ := (hcover start).mpr le_rfl
          rcases List.mem_cons.mp hcuts with rfl | hrest
          · exact hbetween.1
          · exact (hsorted.1 cuts hrest).trans hbetween.1
        · exact (hcover first.1).mp ⟨first, by simp, hself first (by simp)⟩
      refine ⟨by rw [hstart], hnonempty first (by simp), ?_⟩
      cases hstop : first.2 using WithTop.recTopCoe with
      | top =>
          cases rest with
          | nil => rfl
          | cons next rest =>
              refine absurd (hself next (by simp)) (hdisjoint.1 next (by simp) _
                ⟨hsorted.1 next (by simp), ?_⟩)
              rw [hstop]
              exact WithTop.coe_lt_top _
      | coe stop =>
          apply ih (fun cuts hcuts => hnonempty cuts (by simp [hcuts]))
            hsorted.2 hdisjoint.2
          intro position
          constructor
          · rintro ⟨cuts, hcuts, hbetween⟩
            have hpast := (hcover position).mp ⟨cuts, by simp [hcuts], hbetween⟩
            by_contra hbefore
            refine hdisjoint.1 cuts hcuts position ⟨hstart ▸ hpast, ?_⟩ hbetween
            rw [hstop]
            exact WithTop.coe_lt_coe.mpr (not_le.mp hbefore)
          · intro hpast
            have hlt := hnonempty first (by simp)
            rw [hstop, WithTop.coe_lt_coe, hstart] at hlt
            obtain ⟨cuts, hcuts, hbetween⟩ :=
              (hcover position).mpr (hlt.le.trans hpast)
            rcases List.mem_cons.mp hcuts with rfl | hrest
            · have hbefore := hbetween.2
              rw [hstop, WithTop.coe_lt_coe] at hbefore
              exact absurd hpast (not_le.mpr hbefore)
            · exact ⟨cuts, hrest, hbetween⟩

/-! ## Windows -/

/-- The tile overlaps the window between two cuts. -/
def Meets (window cuts : C × WithTop C) : Prop :=
  ((max cuts.1 window.1 : C) : WithTop C) < min cuts.2 window.2

instance (window cuts : C × WithTop C) : Decidable (Meets window cuts) :=
  inferInstanceAs (Decidable (((max cuts.1 window.1 : C) : WithTop C) <
    min cuts.2 window.2))

theorem meets_iff {window cuts : C × WithTop C}
    (hwindow : (window.1 : WithTop C) < window.2)
    (hcuts : (cuts.1 : WithTop C) < cuts.2) :
    Meets window cuts ↔ (window.1 : WithTop C) < cuts.2 ∧
      (cuts.1 : WithTop C) < window.2 := by
  simp only [Meets, WithTop.coe_max, lt_min_iff, max_lt_iff]
  tauto

/-- The tiles that overlap a window follow each other and cover it. -/
theorem Tiles.filter_meets {start : WithTop C} {tiles : List ((C × WithTop C) × L)}
    {window : C × WithTop C} (htiles : Tiles start (tiles.map Prod.fst) ⊤)
    (hwindow : (window.1 : WithTop C) < window.2) (hstart : start < window.2) :
    ∃ first last,
      Tiles first ((tiles.filter fun tile => Meets window tile.1).map Prod.fst)
        last ∧ start ≤ first ∧ first ≤ max (window.1 : WithTop C) start ∧
        window.2 ≤ last := by
  induction tiles generalizing start with
  | nil =>
      obtain rfl : start = ⊤ := htiles
      exact absurd hstart not_top_lt
  | cons tile rest ih =>
      obtain ⟨rfl, hlt, hrest⟩ := htiles
      rw [List.filter_cons]
      by_cases hmeets : (window.1 : WithTop C) < tile.1.2
      · rw [if_pos (decide_eq_true ((meets_iff hwindow hlt).mpr ⟨hmeets, hstart⟩))]
        by_cases hinside : tile.1.2 < window.2
        · obtain ⟨first, last, hfilter, hle, hle', hlast⟩ := ih hrest hinside
          rw [max_eq_right hmeets.le] at hle'
          obtain rfl : first = tile.1.2 := le_antisymm hle' hle
          exact ⟨tile.1.1, last, ⟨rfl, hlt, hfilter⟩, le_rfl, le_max_right _ _, hlast⟩
        · have hnone : (rest.filter fun tile => Meets window tile.1) = [] := by
            rw [List.filter_eq_nil_iff]
            intro next hnext hmeetsNext
            obtain ⟨hnonempty, hbegin, -⟩ :=
              hrest.nonempty (List.mem_map_of_mem hnext)
            have hbefore := ((meets_iff hwindow hnonempty).mp
              (of_decide_eq_true hmeetsNext)).2
            exact hinside (hbegin.trans_lt hbefore)
          rw [hnone]
          exact ⟨tile.1.1, tile.1.2, ⟨rfl, hlt, rfl⟩, le_rfl, le_max_right _ _,
            not_lt.mp hinside⟩
      · have hbefore := not_lt.mp hmeets
        rw [if_neg fun h => hmeets ((meets_iff hwindow hlt).mp
          (of_decide_eq_true h)).1]
        obtain ⟨first, last, hfilter, hle, hle', hlast⟩ :=
          ih hrest (hbefore.trans_lt hwindow)
        rw [max_eq_left hbefore] at hle'
        exact ⟨first, last, hfilter, hlt.le.trans hle, hle'.trans (le_max_left _ _),
          hlast⟩

/-- Clipped to a window they all overlap, tiles still follow each other. -/
theorem Tiles.clip {start stop : WithTop C} {tiles : List (C × WithTop C)}
    {window : C × WithTop C} (htiles : Tiles start tiles stop)
    (hwindow : (window.1 : WithTop C) < window.2)
    (hmeets : ∀ cuts ∈ tiles, Meets window cuts) :
    Tiles (max (window.1 : WithTop C) (min window.2 start))
      (tiles.map fun cuts => (max cuts.1 window.1, min cuts.2 window.2))
      (max (window.1 : WithTop C) (min window.2 stop)) := by
  induction tiles generalizing start with
  | nil =>
      obtain rfl : start = stop := htiles
      rfl
  | cons cuts rest ih =>
      obtain ⟨rfl, hlt, hrest⟩ := htiles
      have hmeet := hmeets cuts (by simp)
      have hsplit := (meets_iff hwindow hlt).mp hmeet
      refine ⟨?_, hmeet, ?_⟩
      · rw [min_eq_right hsplit.2.le, WithTop.coe_max, max_comm]
      · have hstop : min cuts.2 window.2 =
            max (window.1 : WithTop C) (min window.2 cuts.2) := by
          rw [min_comm, max_eq_right (le_min hwindow.le hsplit.1.le)]
        show Tiles (min cuts.2 window.2) _ _
        rw [hstop]
        exact ih hrest fun next hnext => hmeets next (List.mem_cons_of_mem _ hnext)

section Labels

variable [OrderBot C]

theorem Tiles.exists_in {start stop : WithTop C} {tiles : List (C × WithTop C)}
    (htiles : Tiles start tiles stop) {point : Point C}
    (hstart : point.belowTop start) (hstop : ¬ point.belowTop stop) :
    ∃ cuts ∈ tiles, point.In cuts := by
  induction tiles generalizing start with
  | nil =>
      obtain rfl : start = stop := htiles
      exact absurd hstart hstop
  | cons cuts rest ih =>
      obtain ⟨rfl, hlt, hrest⟩ := htiles
      by_cases hpast : point.belowTop cuts.2
      · obtain ⟨next, hnext, hin⟩ := ih hrest hpast
        exact ⟨next, List.mem_cons_of_mem _ hnext, hin⟩
      · exact ⟨cuts, by simp, hstart, hpast⟩

theorem Tiles.belowTop_of_in {start stop : WithTop C}
    {tiles : List (C × WithTop C)} (htiles : Tiles start tiles stop)
    {point : Point C} {cuts : C × WithTop C} (hcuts : cuts ∈ tiles)
    (hin : point.In cuts) : point.belowTop start ∧ ¬ point.belowTop stop := by
  obtain ⟨-, hstart, hstop⟩ := htiles.nonempty hcuts
  exact ⟨point.belowTop_of_le hstart hin.1,
    fun hbelow => hin.2 (point.belowTop_of_le hstop hbelow)⟩

/-- A point lies in at most one tile of a labelled tiling. -/
theorem Tiles.label_unique {start stop : WithTop C}
    {tiles : List ((C × WithTop C) × L)}
    (htiles : Tiles start (tiles.map Prod.fst) stop) {point : Point C}
    {left right : (C × WithTop C) × L} (hleft : left ∈ tiles)
    (hright : right ∈ tiles) (hinLeft : point.In left.1)
    (hinRight : point.In right.1) : left = right := by
  induction tiles generalizing start with
  | nil => cases hleft
  | cons first rest ih =>
      obtain ⟨rfl, -, hrest⟩ := htiles
      have hpast : ∀ tile ∈ rest, point.In tile.1 → point.belowTop first.1.2 :=
        fun tile htile hin =>
          (hrest.belowTop_of_in (List.mem_map_of_mem htile) hin).1
      rcases List.mem_cons.mp hleft with rfl | hleftRest
      · rcases List.mem_cons.mp hright with rfl | hrightRest
        · rfl
        · exact absurd (hpast right hrightRest hinRight) hinLeft.2
      · rcases List.mem_cons.mp hright with rfl | hrightRest
        · exact absurd (hpast left hleftRest hinLeft) hinRight.2
        · exact ih hrest hleftRest hrightRest

/-- A class of points that meets every interval between two cuts. -/
def Separates (points : Point C → Prop) : Prop :=
  ∀ cuts : C × WithTop C, (cuts.1 : WithTop C) < cuts.2 →
    ∃ point, points point ∧ point.In cuts

theorem separates_all : Separates fun _ : Point C => True :=
  fun cuts hcuts =>
    ⟨.ofPosition cuts.1, trivial, Point.ofPosition_in.mpr ⟨le_rfl, hcuts⟩⟩

end Labels

end Uv.Core
