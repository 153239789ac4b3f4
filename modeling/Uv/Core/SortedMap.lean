import Uv.Core.Ranges

/-!
# Sorted maps

A map as the list of its entries in the order of their keys.  Keys of the same position are one
key; the map keeps the one that was there first.
-/

namespace Uv.Core

variable {K V : Type} [OrdKey K]

/-- The keys have the same position. -/
def SameKey (key other : K) : Prop := OrdKey.key key = OrdKey.key other

/-- Insert a value, or change the one that is there. -/
def upsertEntries (key : K) (f : Option V → V) : List (K × V) → List (K × V)
  | [] => [(key, f none)]
  | (other, value) :: rest =>
      match compare key other with
      | .lt => (key, f none) :: (other, value) :: rest
      | .eq => (other, f (some value)) :: rest
      | .gt => (other, value) :: upsertEntries key f rest

def SortedEntries (entries : List (K × V)) : Prop :=
  entries.Pairwise fun entry other => OrdKey.key entry.1 < OrdKey.key other.1

/-- The keys are those that were there, and the new one if there was none like it. -/
theorem mem_keys_upsertEntries {key k : K} {f : Option V → V} {entries : List (K × V)}
    (hsorted : SortedEntries entries) : k ∈ (upsertEntries key f entries).map Prod.fst ↔
      k ∈ entries.map Prod.fst ∨ k = key ∧ ∀ other ∈ entries.map Prod.fst, ¬ SameKey other key := by
  induction entries with
  | nil => simp [upsertEntries]
  | cons entry rest ih =>
      obtain ⟨other, value⟩ := entry
      obtain ⟨hrest, htail⟩ := List.pairwise_cons.mp hsorted
      rw [upsertEntries]
      have hcompare := OrdKey.compare_eq key other
      split
      · rename_i hlt
        rw [hlt, eq_comm, Order.linearCmp_eq_lt] at hcompare
        have hfresh : ∀ k ∈ ((other, value) :: rest).map Prod.fst, ¬ SameKey k key := by
          intro k hk hsame
          rw [List.map_cons, List.mem_cons] at hk
          rcases hk with rfl | hk
          · exact hcompare.ne' hsame
          · obtain ⟨entry, hentry, rfl⟩ := List.mem_map.mp hk
            exact (hcompare.trans (hrest entry hentry)).ne' hsame
        rw [List.map_cons, List.mem_cons]
        tauto
      · rename_i heq
        rw [heq, eq_comm, Order.linearCmp_eq_eq] at hcompare
        simp only [List.map_cons, List.mem_cons, iff_self_or, and_imp]
        intro _ hfresh
        exact absurd hcompare.symm (hfresh other (.inl rfl))
      · rename_i hgt
        rw [hgt, eq_comm, Order.linearCmp_eq_gt] at hcompare
        have hne : ¬ SameKey other key := hcompare.ne
        simp only [List.map_cons, List.mem_cons, ih htail, forall_eq_or_imp]
        tauto

theorem sortedEntries_upsertEntries {key : K} {f : Option V → V} {entries : List (K × V)}
    (hsorted : SortedEntries entries) : SortedEntries (upsertEntries key f entries) := by
  induction entries with
  | nil => exact List.pairwise_singleton ..
  | cons entry rest ih =>
      obtain ⟨other, value⟩ := entry
      obtain ⟨hrest, htail⟩ := List.pairwise_cons.mp hsorted
      rw [upsertEntries]
      have hcompare := OrdKey.compare_eq key other
      split
      · rename_i hlt
        rw [hlt, eq_comm, Order.linearCmp_eq_lt] at hcompare
        refine List.pairwise_cons.mpr ⟨?_, hsorted⟩
        intro entry hentry
        rcases List.mem_cons.mp hentry with rfl | hentry
        · exact hcompare
        · exact hcompare.trans (hrest entry hentry)
      · exact List.pairwise_cons.mpr ⟨hrest, htail⟩
      · rename_i hgt
        rw [hgt, eq_comm, Order.linearCmp_eq_gt] at hcompare
        refine List.pairwise_cons.mpr ⟨?_, ih htail⟩
        intro entry hentry
        have hkey : entry.1 ∈ (upsertEntries key f rest).map Prod.fst :=
          List.mem_map_of_mem hentry
        rcases (mem_keys_upsertEntries htail).mp hkey with hkey | ⟨hkey, -⟩
        · obtain ⟨entry', hentry', heq⟩ := List.mem_map.mp hkey
          rw [← heq]
          exact hrest entry' hentry'
        · rw [hkey]
          exact hcompare

/-- An entry is one that was there, or has a value that was inserted. -/
theorem mem_upsertEntries {key : K} {f : Option V → V} {entries : List (K × V)} {entry : K × V}
    (hmem : entry ∈ upsertEntries key f entries) : entry ∈ entries ∨ ∃ old, entry.2 = f old := by
  induction entries with
  | nil =>
      rw [upsertEntries, List.mem_singleton] at hmem
      exact .inr ⟨none, by rw [hmem]⟩
  | cons head rest ih =>
      obtain ⟨other, value⟩ := head
      rw [upsertEntries] at hmem
      split at hmem
      · rcases List.mem_cons.mp hmem with rfl | hmem
        · exact .inr ⟨none, rfl⟩
        · exact .inl hmem
      · rcases List.mem_cons.mp hmem with rfl | hmem
        · exact .inr ⟨some value, rfl⟩
        · exact .inl (List.mem_cons_of_mem _ hmem)
      · rcases List.mem_cons.mp hmem with rfl | hmem
        · exact .inl List.mem_cons_self
        · exact (ih hmem).imp_left (List.mem_cons_of_mem _)

theorem compare_beq_eq {key other : K} : (compare key other == .eq) = true ↔ SameKey key other := by
  rw [OrdKey.compare_eq, beq_iff_eq, Order.linearCmp_eq_eq]
  rfl

/-- What is found under other keys stays. -/
theorem find_upsertEntries {key k : K} {f : Option V → V} {entries : List (K × V)}
    (hne : ¬ SameKey k key) :
    (upsertEntries key f entries).find? (fun entry => compare k entry.1 == .eq) =
      entries.find? fun entry => compare k entry.1 == .eq := by
  have hkey : (compare k key == .eq) = false := by
    rw [Bool.eq_false_iff]
    exact fun hsame => hne (compare_beq_eq.mp hsame)
  induction entries with
  | nil => simp [upsertEntries, hkey]
  | cons head rest ih =>
      obtain ⟨other, value⟩ := head
      rw [upsertEntries]
      split
      · rw [List.find?_cons, hkey]
      · rename_i heq
        have hother : (compare k other == .eq) = false := by
          rw [Bool.eq_false_iff]
          intro hsame
          have hsameOther : SameKey key other := compare_beq_eq.mp (by rw [heq]; rfl)
          exact hne ((compare_beq_eq.mp hsame).trans hsameOther.symm)
        rw [List.find?_cons, List.find?_cons, hother]
      · rw [List.find?_cons, List.find?_cons, ih]

/-- A map with the entries in order. -/
structure SortedMap (K V : Type) [OrdKey K] where
  entries : List (K × V)
  sorted : SortedEntries entries

namespace SortedMap

def empty : SortedMap K V := ⟨[], List.Pairwise.nil⟩

def keys (map : SortedMap K V) : List K := map.entries.map Prod.fst

/-- `get_key_value`. -/
def getKeyValue (map : SortedMap K V) (key : K) : Option (K × V) :=
  map.entries.find? fun entry => compare key entry.1 == .eq

/-- Insert a value, or change the one that is there; the key that is there stays. -/
def upsert (map : SortedMap K V) (key : K) (f : Option V → V) : SortedMap K V :=
  ⟨upsertEntries key f map.entries, sortedEntries_upsertEntries map.sorted⟩

def insert (map : SortedMap K V) (key : K) (value : V) : SortedMap K V :=
  map.upsert key fun _ => value

variable {map : SortedMap K V} {key k : K} {f : Option V → V}

theorem mem_keys_upsert : k ∈ (map.upsert key f).keys ↔
    k ∈ map.keys ∨ k = key ∧ ∀ other ∈ map.keys, ¬ SameKey other key :=
  mem_keys_upsertEntries map.sorted

theorem getKeyValue_upsert (hne : ¬ SameKey k key) :
    (map.upsert key f).getKeyValue k = map.getKeyValue k :=
  find_upsertEntries hne

/-- After keys that are all different: the new ones are those for which there was none. -/
theorem mem_keys_foldl_upsert {α : Type} {key : α → K} {f : α → Option V → V} {xs : List α}
    (hdistinct : xs.Pairwise fun x y => ¬ SameKey (key x) (key y)) :
    k ∈ (xs.foldl (fun map x => map.upsert (key x) (f x)) map).keys ↔
      k ∈ map.keys ∨ ∃ x ∈ xs, k = key x ∧ ∀ other ∈ map.keys, ¬ SameKey other k := by
  induction xs generalizing map with
  | nil => simp
  | cons x xs ih =>
      obtain ⟨hx, hxs⟩ := List.pairwise_cons.mp hdistinct
      rw [List.foldl_cons, ih hxs]
      simp only [mem_keys_upsert, List.mem_cons, exists_eq_or_imp]
      constructor
      · rintro ((hk | ⟨rfl, hfresh⟩) | ⟨y, hy, rfl, hfresh⟩)
        · exact .inl hk
        · exact .inr (.inl ⟨rfl, hfresh⟩)
        · exact .inr (.inr ⟨y, hy, rfl, fun other hother => hfresh other (.inl hother)⟩)
      · rintro (hk | ⟨rfl, hfresh⟩ | ⟨y, hy, rfl, hfresh⟩)
        · exact .inl (.inl hk)
        · exact .inl (.inr ⟨rfl, hfresh⟩)
        · refine .inr ⟨y, hy, rfl, ?_⟩
          rintro other (hother | ⟨rfl, -⟩)
          · exact hfresh other hother
          · exact hx y hy

end SortedMap

end Uv.Core
