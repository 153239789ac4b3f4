import Mathlib

/-!
# Rewriting a family of sets

Elements have substitutes, and the substitutes of a substitute are substitutes
too.  One round replaces one element, in every set of the family that has it, by
each of its substitutes and keeps the old sets.  Whatever the order of the
rounds, the family ends up with every set that arises when each element of a set
stays or becomes a substitute.
-/

namespace Uv.Core

variable {α : Type*} [DecidableEq α]

/-- The second set arises from the first when each element stays or becomes a
substitute. -/
def Rewrites (sub : α → α → Prop) (source target : Finset α) : Prop :=
  ∃ f : α → α, (∀ x ∈ source, f x = x ∨ sub x (f x)) ∧ source.image f = target

namespace Rewrites

variable {sub sub' : α → α → Prop} {source target : Finset α}

theorem refl (sub : α → α → Prop) (source : Finset α) : Rewrites sub source source :=
  ⟨id, fun _ _ => .inl rfl, Finset.image_id⟩

theorem mono (hsub : ∀ x ∈ source, ∀ y, sub x y → sub' x y)
    (hrewrites : Rewrites sub source target) : Rewrites sub' source target := by
  obtain ⟨f, hf, himage⟩ := hrewrites
  exact ⟨f, fun x hx => (hf x hx).imp_right (hsub x hx _), himage⟩

theorem congr (hsame : ∀ x ∈ source, ∀ y, sub x y ↔ sub' x y) :
    Rewrites sub source target ↔ Rewrites sub' source target :=
  ⟨mono fun x hx y => (hsame x hx y).mp, mono fun x hx y => (hsame x hx y).mpr⟩

/-- One more replacement. -/
theorem replace (htrans : ∀ x y z, sub x y → sub y z → sub x z) {old new : α} (hold : old ∈ target)
    (hsub : sub old new) (hrewrites : Rewrites sub source target) :
    Rewrites sub source (insert new (target.erase old)) := by
  obtain ⟨f, hf, himage⟩ := hrewrites
  refine ⟨fun x => if f x = old then new else f x, ?_, ?_⟩
  · intro x hx
    dsimp only
    split
    · rename_i heq
      rcases hf x hx with hsame | hstep
      · rw [heq] at hsame
        exact .inr (hsame ▸ hsub)
      · rw [heq] at hstep
        exact .inr (htrans _ _ _ hstep hsub)
    · exact hf x hx
  · rw [← himage, Finset.mem_image] at hold
    obtain ⟨x, hx, hfx⟩ := hold
    ext y
    simp only [Finset.mem_image, Finset.mem_insert, Finset.mem_erase, ← himage]
    constructor
    · rintro ⟨z, hz, rfl⟩
      split
      · exact .inl rfl
      · rename_i hne
        exact .inr ⟨hne, z, hz, rfl⟩
    · rintro (rfl | ⟨hne, z, hz, rfl⟩)
      · exact ⟨x, hx, if_pos hfx⟩
      · exact ⟨z, hz, if_neg hne⟩

private theorem image_swap {x y : α} (hx : x ∈ source) (hy : y ∈ source) :
    source.image (Equiv.swap x y) = source := by
  have hmem : ∀ z ∈ source, Equiv.swap x y z ∈ source := by
    intro z hz
    rw [Equiv.swap_apply_def]
    split
    · exact hy
    · split
      · exact hx
      · exact hz
  ext z
  rw [Finset.mem_image]
  constructor
  · rintro ⟨w, hw, rfl⟩
    exact hmem w hw
  · intro hz
    exact ⟨Equiv.swap x y z, hmem z hz, Equiv.swap_apply_self x y z⟩

/-- The elements of the source that are in the target already may stay. -/
theorem exists_settled (htrans : ∀ x y z, sub x y → sub y z → sub x z) (hrewrites : Rewrites sub source target) :
    ∃ f : α → α, (∀ x ∈ source, f x = x ∨ sub x (f x)) ∧ source.image f = target ∧
      ∀ x ∈ source, x ∈ target → f x = x := by
  obtain ⟨f, hf, himage⟩ := hrewrites
  -- Exchanging two values settles one element more.
  induction hcard : (source.filter fun x => x ∈ target ∧ f x ≠ x).card
    using Nat.strong_induction_on generalizing f with
  | _ n ih =>
      by_cases hempty : ∀ x ∈ source, x ∈ target → f x = x
      · exact ⟨f, hf, himage, hempty⟩
      · push Not at hempty
        obtain ⟨x, hx, htarget, hne⟩ := hempty
        obtain ⟨y, hy, hfy⟩ : ∃ y ∈ source, f y = x := by
          rw [← himage] at htarget
          exact Finset.mem_image.mp htarget
        have hyx : y ≠ x := by
          rintro rfl
          exact hne hfy
        let g := f ∘ Equiv.swap x y
        have hgx : g x = x := by simp [g, hfy]
        have hgy : g y = f x := by simp [g]
        have hother : ∀ z, z ≠ x → z ≠ y → g z = f z := by
          intro z hzx hzy
          simp [g, Equiv.swap_apply_of_ne_of_ne hzx hzy]
        have hg : ∀ z ∈ source, g z = z ∨ sub z (g z) := by
          intro z hz
          by_cases hzx : z = x
          · exact .inl (hzx ▸ hgx)
          by_cases hzy : z = y
          · have hstep : sub y x := hfy ▸ (hf y hy).resolve_left (hfy ▸ hyx.symm)
            rw [hzy, hgy]
            exact .inr (htrans _ _ _ hstep ((hf x hx).resolve_left hne))
          · rw [hother z hzx hzy]
            exact hf z hz
        have hgimage : source.image g = target := by
          rw [← Finset.image_image, image_swap hx hy, himage]
        apply ih _ ?_ g hg hgimage rfl
        rw [← hcard]
        apply Finset.card_lt_card
        rw [Finset.ssubset_iff_of_subset]
        · exact ⟨x, by simp [hx, htarget, hne], by simp [hgx]⟩
        · intro z hz
          rw [Finset.mem_filter] at hz ⊢
          refine ⟨hz.1, hz.2.1, ?_⟩
          by_cases hzx : z = x
          · exact (hz.2.2 (hzx ▸ hgx)).elim
          by_cases hzy : z = y
          · rw [hzy, hfy]
            exact hyx.symm
          · rw [← hother z hzx hzy]
            exact hz.2.2

end Rewrites

/-! ## Rounds -/

/-- One round: every set with the element, and each of its substitutes. -/
def substituteOne (subs : α → Finset α) (sets : Finset (Finset α)) (x : α) :
    Finset (Finset α) :=
  sets ∪ (sets.filter (x ∈ ·)).biUnion fun set =>
    (subs x).image fun sub => insert sub (set.erase x)

theorem subset_substituteOne (subs : α → Finset α) (sets : Finset (Finset α)) (x : α) :
    sets ⊆ substituteOne subs sets x :=
  Finset.subset_union_left

theorem mem_substituteOne {subs : α → Finset α} {sets : Finset (Finset α)} {x : α}
    {target : Finset α} : target ∈ substituteOne subs sets x ↔ target ∈ sets ∨
      ∃ set ∈ sets, x ∈ set ∧ ∃ sub ∈ subs x, insert sub (set.erase x) = target := by
  simp only [substituteOne, Finset.mem_union, Finset.mem_biUnion, Finset.mem_filter,
    Finset.mem_image, and_assoc]

section Rounds

variable {subs : α → Finset α}
  (htrans : ∀ x y z, y ∈ subs x → z ∈ subs y → z ∈ subs x)

include htrans

theorem rewrites_of_mem_foldl {sets : Finset (Finset α)} (keys : List α)
    {target : Finset α} (hmem : target ∈ keys.foldl (substituteOne subs) sets) :
    ∃ source ∈ sets, Rewrites (fun x y => y ∈ subs x) source target := by
  induction keys using List.reverseRecOn generalizing target with
  | nil => exact ⟨target, hmem, .refl _ target⟩
  | append_singleton keys x ih =>
      rw [List.foldl_append, List.foldl_cons, List.foldl_nil, mem_substituteOne] at hmem
      rcases hmem with hmem | ⟨set, hset, hx, sub, hsub, rfl⟩
      · exact ih hmem
      · obtain ⟨source, hsource, hrewrites⟩ := ih hset
        exact ⟨source, hsource, hrewrites.replace htrans hx hsub⟩

/-- What the rounds so far have made of a set on its way to the target. -/
private def partway (f : α → α) (done : List α) (x : α) : α :=
  if x ∈ done then f x else x

omit htrans in
private theorem image_partway_mem {sets : Finset (Finset α)} {source : Finset α}
    {f : α → α} (hf : ∀ x ∈ source, f x = x ∨ f x ∈ subs x)
    (hsettled : ∀ x ∈ source, x ∈ source.image f → f x = x) {done : List α}
    (hmem : source.image (partway f done) ∈ sets) (keys : List α) :
    source.image (partway f (done ++ keys)) ∈ keys.foldl (substituteOne subs) sets := by
  induction keys generalizing sets done with
  | nil => simpa using hmem
  | cons x keys ih =>
      rw [List.foldl_cons, List.append_cons]
      apply ih
      by_cases hmoves : x ∈ source ∧ x ∉ done ∧ f x ≠ x
      · obtain ⟨hx, hdone, hne⟩ := hmoves
        have hhere : partway f done x = x := if_neg hdone
        have honly : ∀ y ∈ source, partway f done y = x → y = x := by
          intro y hy heq
          unfold partway at heq
          split at heq
          · have himage : x ∈ source.image f := Finset.mem_image.mpr ⟨y, hy, heq⟩
            exact (hne (hsettled x hx himage)).elim
          · exact heq
        have hnext : source.image (partway f (done ++ [x])) =
            insert (f x) ((source.image (partway f done)).erase x) := by
          have hsnoc : ∀ y, y ≠ x → partway f (done ++ [x]) y = partway f done y := by
            intro y hy
            simp [partway, hy]
          have hlast : partway f (done ++ [x]) x = f x := by simp [partway]
          ext z
          simp only [Finset.mem_image, Finset.mem_insert, Finset.mem_erase]
          constructor
          · rintro ⟨y, hy, rfl⟩
            by_cases hyx : y = x
            · exact .inl (hyx ▸ hlast)
            · rw [hsnoc y hyx]
              exact .inr ⟨fun heq => hyx (honly y hy heq), y, hy, rfl⟩
          · rintro (rfl | ⟨hzx, y, hy, rfl⟩)
            · exact ⟨x, hx, hlast⟩
            · refine ⟨y, hy, hsnoc y ?_⟩
              rintro rfl
              exact hzx hhere
        rw [hnext, mem_substituteOne]
        exact .inr ⟨_, hmem, Finset.mem_image.mpr ⟨x, hx, hhere⟩, f x,
          (hf x hx).resolve_left hne, rfl⟩
      · have hsame : source.image (partway f (done ++ [x])) =
            source.image (partway f done) := by
          apply Finset.image_congr
          intro y hy
          have hstays : y = x → y ∉ done → f y = y := by
            rintro rfl hdone
            by_contra hne
            exact hmoves ⟨hy, hdone, hne⟩
          unfold partway
          by_cases hyd : y ∈ done
          · simp [hyd]
          · by_cases hyx : y = x
            · rw [if_pos (by simp [hyx]), if_neg hyd, hstays hyx hyd]
            · rw [if_neg (by simp [hyd, hyx]), if_neg hyd]
        rw [hsame]
        exact subset_substituteOne subs sets x hmem

/-- After a round for every element that has substitutes, in any order, the
family is closed under rewriting. -/
theorem mem_foldl_substituteOne {sets : Finset (Finset α)} {keys : List α}
    (hkeys : ∀ x, (subs x).Nonempty → x ∈ keys) {target : Finset α} :
    target ∈ keys.foldl (substituteOne subs) sets ↔
      ∃ source ∈ sets, Rewrites (fun x y => y ∈ subs x) source target := by
  constructor
  · exact rewrites_of_mem_foldl htrans keys
  · rintro ⟨source, hsource, hrewrites⟩
    obtain ⟨f, hf, himage, hsettled⟩ := hrewrites.exists_settled htrans
    have hstart : source.image (partway f []) ∈ sets := by
      have hid : partway f [] = id := by
        funext x
        exact if_neg (List.not_mem_nil)
      rwa [hid, Finset.image_id]
    have hend := image_partway_mem hf (by rwa [himage]) hstart keys
    have htarget : source.image (partway f ([] ++ keys)) = target := by
      rw [← himage, List.nil_append]
      apply Finset.image_congr
      intro x hx
      unfold partway
      split
      · rfl
      · rename_i hnot
        rcases hf x hx with heq | hsub
        · exact heq.symm
        · exact (hnot (hkeys x ⟨f x, hsub⟩)).elim
    rwa [htarget] at hend

end Rounds

end Uv.Core
