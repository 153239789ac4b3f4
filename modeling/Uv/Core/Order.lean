import Mathlib

/-!
# Comparisons as `Ordering` values

Code compares compound values field by field and stops at the first field that
differs.  These lemmas say that such a comparison is the comparison of a
lexicographic order, so that the order laws come from Mathlib.
-/

namespace Uv.Core.Order

variable {α β : Type*}

/-- The comparison of a linear order.  Unlike `compare` and `cmp` it is tied to
the order itself, not to an `Ord` or decidability instance found elsewhere. -/
def linearCmp [LinearOrder α] (left right : α) : Ordering :=
  cmp left right

theorem linearCmp_eq_lt [LinearOrder α] {left right : α} :
    linearCmp left right = .lt ↔ left < right := cmp_eq_lt_iff _ _

theorem linearCmp_eq_eq [LinearOrder α] {left right : α} :
    linearCmp left right = .eq ↔ left = right := cmp_eq_eq_iff _ _

theorem linearCmp_eq_gt [LinearOrder α] {left right : α} :
    linearCmp left right = .gt ↔ right < left := cmp_eq_gt_iff _ _

@[simp]
theorem linearCmp_self [LinearOrder α] (value : α) :
    linearCmp value value = .eq := cmp_self_eq_eq value

theorem linearCmp_eq_compare [LinearOrder α] (left right : α) :
    linearCmp left right = compare left right := cmp_eq_compare left right

/-- A strictly monotone reading of two values keeps their comparison. -/
theorem linearCmp_congr [LinearOrder α] [LinearOrder β]
    {left right : α} {left' right' : β}
    (hlt : left < right → left' < right') (heq : left = right → left' = right')
    (hgt : right < left → right' < left') :
    linearCmp left right = linearCmp left' right' := by
  rcases lt_trichotomy left right with hcase | hcase | hcase
  · rw [linearCmp_eq_lt.mpr hcase, linearCmp_eq_lt.mpr (hlt hcase)]
  · rw [linearCmp_eq_eq.mpr hcase, linearCmp_eq_eq.mpr (heq hcase)]
  · rw [linearCmp_eq_gt.mpr hcase, linearCmp_eq_gt.mpr (hgt hcase)]

/-- Comparing element by element is the lexicographic order on lists. -/
theorem compareLex_eq [LinearOrder α] (left right : List α) :
    List.compareLex compare left right = linearCmp left right := by
  induction left generalizing right with
  | nil =>
      cases right with
      | nil => rw [List.compareLex_nil_nil, linearCmp_self]
      | cons y ys =>
          rw [List.compareLex_nil_cons, eq_comm, linearCmp_eq_lt]
          exact List.nil_lt_cons y ys
  | cons x xs ih =>
      cases right with
      | nil =>
          rw [List.compareLex_cons_nil, eq_comm, linearCmp_eq_gt]
          exact List.nil_lt_cons x xs
      | cons y ys =>
          rw [List.compareLex_cons_cons, ih, ← linearCmp_eq_compare]
          rcases lt_trichotomy x y with hlt | rfl | hgt
          · rw [linearCmp_eq_lt.mpr hlt, Ordering.lt_then, eq_comm,
              linearCmp_eq_lt]
            exact List.cons_lt_cons_iff.mpr (.inl hlt)
          · rw [linearCmp_self, Ordering.eq_then]
            exact linearCmp_congr (by simp) (by simp) (by simp)
          · rw [linearCmp_eq_gt.mpr hgt, Ordering.gt_then, eq_comm,
              linearCmp_eq_gt]
            exact List.cons_lt_cons_iff.mpr (.inl hgt)

theorem linearCmp_toLex [LinearOrder α] [LinearOrder β] (a c : α) (b d : β) :
    linearCmp (toLex (a, b)) (toLex (c, d)) = (linearCmp a c).then (linearCmp b d) := by
  rw [linearCmp_eq_compare, linearCmp_eq_compare, linearCmp_eq_compare]
  rfl

/-- Two-digit numbers compare digit by digit. -/
theorem linearCmp_mul_add {base high high' low low' : ℕ} (hlow : low < base)
    (hlow' : low' < base) :
    linearCmp (high * base + low) (high' * base + low') =
      (linearCmp high high').then (linearCmp low low') := by
  have hmono : ∀ {h h' l l' : ℕ}, l < base → h < h' →
      h * base + l < h' * base + l' := by
    intro h h' l l' hl hh
    have hstep := Nat.mul_le_mul_right base (Nat.succ_le_of_lt hh)
    rw [Nat.succ_mul] at hstep
    omega
  rcases lt_trichotomy high high' with hcase | rfl | hcase
  · rw [linearCmp_eq_lt.mpr (hmono hlow hcase),
      linearCmp_eq_lt.mpr hcase, Ordering.lt_then]
  · rw [linearCmp_self, Ordering.eq_then]
    exact linearCmp_congr (by omega) (by omega) (by omega)
  · rw [linearCmp_eq_gt.mpr (hmono hlow' hcase),
      linearCmp_eq_gt.mpr hcase, Ordering.gt_then]

/-! ## Lists compared after padding with zeros -/

/-- The list without its trailing zeros. -/
def trimZeros (numbers : List ℕ) : List ℕ :=
  numbers.rdropWhile (· == 0)

theorem trimZeros_append_replicate (numbers : List ℕ) :
    ∃ count, numbers = trimZeros numbers ++ List.replicate count 0 ∧
      (trimZeros numbers).length + count = numbers.length := by
  induction numbers using List.reverseRecOn with
  | nil => exact ⟨0, rfl, rfl⟩
  | append_singleton numbers n ih =>
      unfold trimZeros at ih ⊢
      rw [List.rdropWhile_concat]
      by_cases hzero : n = 0
      · obtain ⟨count, hnumbers, hlength⟩ := ih
        refine ⟨count + 1, ?_, ?_⟩
        · rw [if_pos (by simpa using hzero), List.replicate_succ',
            ← List.append_assoc, ← hnumbers, hzero]
        · rw [if_pos (by simpa using hzero), List.length_append,
            List.length_singleton]
          omega
      · exact ⟨0, by simp [hzero], by simp [hzero]⟩

theorem getLast?_trimZeros (numbers : List ℕ) :
    (trimZeros numbers).getLast? ≠ some 0 := by
  intro hlast
  have hne : trimZeros numbers ≠ [] := by
    intro hnil
    rw [hnil] at hlast
    simp at hlast
  have hnot := List.rdropWhile_last_not (· == 0) numbers hne
  rw [List.getLast?_eq_getLast_of_ne_nil hne] at hlast
  have hzero := Option.some.inj hlast
  unfold trimZeros at hzero
  simp [hzero] at hnot

private theorem getLast?_of_cons {n : ℕ} {numbers : List ℕ}
    (hlast : (n :: numbers).getLast? ≠ some 0) :
    (n = 0 → numbers ≠ []) ∧ numbers.getLast? ≠ some 0 := by
  cases numbers with
  | nil => simpa using hlast
  | cons m numbers =>
      rw [List.getLast?_cons_cons] at hlast
      exact ⟨fun _ => List.cons_ne_nil _ _, hlast⟩

/-- Padding with zeros does not change how lists without trailing zeros
compare. -/
theorem compareLex_append_replicate (left right : List ℕ) {count count' : ℕ}
    (hleft : left.getLast? ≠ some 0) (hright : right.getLast? ≠ some 0)
    (hlength : left.length + count = right.length + count') :
    List.compareLex compare (left ++ List.replicate count 0)
        (right ++ List.replicate count' 0) =
      List.compareLex compare left right := by
  induction left generalizing right count count' with
  | nil =>
      induction right generalizing count with
      | nil =>
          obtain rfl : count = count' := by simpa using hlength
          rw [compareLex_eq, compareLex_eq, List.nil_append,
            linearCmp_self, linearCmp_self]
      | cons y ys ih =>
          obtain ⟨hzero, hrest⟩ := getLast?_of_cons hright
          obtain ⟨count, rfl⟩ : ∃ c, count = c + 1 :=
            ⟨count - 1, by simp at hlength; omega⟩
          rw [List.nil_append, List.replicate_succ, List.cons_append,
            List.compareLex_cons_cons, List.compareLex_nil_cons]
          rcases Nat.eq_zero_or_pos y with rfl | hpos
          · have hlength' : ([] : List ℕ).length + count = ys.length + count' := by
              simp at hlength ⊢
              omega
            have hsame := ih hrest hlength'
            rw [List.nil_append] at hsame
            rw [hsame, compare_eq_iff_eq.mpr rfl, Ordering.eq_then]
            obtain ⟨z, zs, rfl⟩ := List.exists_cons_of_ne_nil (hzero rfl)
            exact List.compareLex_nil_cons
          · rw [compare_lt_iff_lt.mpr hpos, Ordering.lt_then]
  | cons x xs ih =>
      obtain ⟨hzero, hrest⟩ := getLast?_of_cons hleft
      cases right with
      | nil =>
          obtain ⟨count', rfl⟩ : ∃ c, count' = c + 1 :=
            ⟨count' - 1, by simp at hlength; omega⟩
          rw [List.nil_append, List.replicate_succ, List.cons_append,
            List.compareLex_cons_cons, List.compareLex_cons_nil]
          rcases Nat.eq_zero_or_pos x with rfl | hpos
          · have hlength' : xs.length + count = ([] : List ℕ).length + count' := by
              simp at hlength ⊢
              omega
            have hsame := ih [] hrest (by simp) hlength'
            rw [List.nil_append] at hsame
            rw [hsame, compare_eq_iff_eq.mpr rfl, Ordering.eq_then]
            obtain ⟨z, zs, rfl⟩ := List.exists_cons_of_ne_nil (hzero rfl)
            exact List.compareLex_cons_nil
          · rw [compare_gt_iff_gt.mpr hpos, Ordering.gt_then]
      | cons y ys =>
          rw [List.cons_append, List.cons_append, List.compareLex_cons_cons,
            List.compareLex_cons_cons,
            ih ys hrest (getLast?_of_cons hright).2
              (by simp at hlength; omega)]

/-- Comparing two lists padded to one length is comparing them without their
trailing zeros. -/
theorem compareLex_rightpad (left right : List ℕ) {length : ℕ}
    (hleft : left.length ≤ length) (hright : right.length ≤ length) :
    List.compareLex compare (left.rightpad length 0)
        (right.rightpad length 0) =
      linearCmp (trimZeros left) (trimZeros right) := by
  obtain ⟨count, hleft', hcount⟩ := trimZeros_append_replicate left
  obtain ⟨count', hright', hcount'⟩ := trimZeros_append_replicate right
  have hpad : ∀ {numbers : List ℕ} {c : ℕ},
      numbers = trimZeros numbers ++ List.replicate c 0 →
        numbers.rightpad length 0 = trimZeros numbers ++
          List.replicate (c + (length - numbers.length)) 0 := by
    intro numbers c hnumbers
    unfold List.rightpad
    rw [List.replicate_add, ← List.append_assoc, ← hnumbers]
  rw [hpad hleft', hpad hright',
    compareLex_append_replicate _ _ (getLast?_trimZeros left)
      (getLast?_trimZeros right) (by omega),
    compareLex_eq]

theorem trimZeros_cons (n : ℕ) (numbers : List ℕ) :
    trimZeros (n :: numbers) =
      if n = 0 ∧ trimZeros numbers = [] then [] else n :: trimZeros numbers := by
  unfold trimZeros List.rdropWhile
  rw [List.reverse_cons, List.dropWhile_append]
  by_cases hempty : numbers.reverse.dropWhile (· == 0) = []
  · by_cases hzero : n = 0 <;> simp [hempty, hzero]
  · simp [hempty]

theorem trimZeros_cons_lt {n m : ℕ} {left right : List ℕ} :
    trimZeros (n :: left) < trimZeros (m :: right) ↔
      n < m ∨ n = m ∧ trimZeros left < trimZeros right := by
  rw [trimZeros_cons, trimZeros_cons]
  split
  · rename_i hleft
    obtain ⟨rfl, hleft⟩ := hleft
    rw [hleft]
    split
    · rename_i hright
      simp [hright.1, hright.2]
    · rename_i hright
      rcases Nat.eq_zero_or_pos m with rfl | hpos
      · have hne : trimZeros right ≠ [] := fun hnil => hright ⟨rfl, hnil⟩
        obtain ⟨first, rest, hcons⟩ := List.exists_cons_of_ne_nil hne
        simp [hcons]
      · simp [hpos]
  · rename_i hleft
    split
    · rename_i hright
      simp [hright.1, hright.2]
    · exact List.cons_lt_cons_iff

/-- A list with a first number, padded if it has none. -/
theorem trimZeros_headD_tail (numbers : List ℕ) :
    trimZeros (numbers.headD 0 :: numbers.tail) = trimZeros numbers := by
  cases numbers with
  | nil => rfl
  | cons n numbers => rfl

/-- `numbers`, padded with zeros, starts with the given numbers. -/
def PaddedPrefix : List ℕ → List ℕ → Prop
  | [], _ => True
  | n :: start, numbers => numbers.headD 0 = n ∧ PaddedPrefix start numbers.tail

theorem paddedPrefix_of_zero {start : List ℕ} (hzero : ∀ n ∈ start, n = 0) :
    PaddedPrefix start [] := by
  induction start with
  | nil => trivial
  | cons n start ih =>
      exact ⟨(hzero n (by simp)).symm, ih fun m hm => hzero m (by simp [hm])⟩

/-- The lists that start with some numbers lie between these numbers and the
next ones. -/
theorem paddedPrefix_iff (start : List ℕ) (last : ℕ) (numbers : List ℕ) :
    PaddedPrefix (start ++ [last]) numbers ↔
      trimZeros (start ++ [last]) ≤ trimZeros numbers ∧
        trimZeros numbers < trimZeros (start ++ [last + 1]) := by
  induction start generalizing numbers with
  | nil =>
      rw [← trimZeros_headD_tail numbers, ← not_lt, List.nil_append,
        List.nil_append, trimZeros_cons_lt, trimZeros_cons_lt]
      simp [PaddedPrefix, trimZeros]
      omega
  | cons n start ih =>
      rw [← trimZeros_headD_tail numbers, ← not_lt, List.cons_append,
        List.cons_append, trimZeros_cons_lt, trimZeros_cons_lt]
      simp only [PaddedPrefix, ih, ← not_lt]
      constructor
      · rintro ⟨rfl, hle, hlt⟩
        exact ⟨by simpa using hle, .inr ⟨rfl, hlt⟩⟩
      · rintro ⟨hle, hlt | ⟨heq, hlt⟩⟩
        · exact (hle (.inl hlt)).elim
        · exact ⟨heq, fun hlt => hle (.inr ⟨heq, hlt⟩), hlt⟩

theorem trimZeros_eq_nil {numbers : List ℕ} :
    trimZeros numbers = [] ↔ ∀ n ∈ numbers, n = 0 := by
  unfold trimZeros
  rw [List.rdropWhile_eq_nil_iff]
  simp

/-- `numbers` stops inside `start`, before a number that is not zero. -/
def Truncates (numbers start : List ℕ) : Prop :=
  ∃ rest, start = numbers ++ rest ∧ ∃ n ∈ rest, n ≠ 0

theorem Truncates.trimZeros_lt {numbers start : List ℕ}
    (htruncates : Truncates numbers start) :
    trimZeros numbers < trimZeros start := by
  obtain ⟨rest, rfl, n, hn, hne⟩ := htruncates
  induction numbers with
  | nil =>
      have hnil : trimZeros rest ≠ [] := fun hnil =>
        hne (trimZeros_eq_nil.mp hnil n hn)
      obtain ⟨first, others, hcons⟩ := List.exists_cons_of_ne_nil hnil
      rw [List.nil_append, hcons]
      exact List.nil_lt_cons first others
  | cons m numbers ih =>
      rw [List.cons_append, trimZeros_cons_lt]
      exact .inr ⟨rfl, ih⟩

/-- The numbers both lists have are the same exactly when one starts with the
other, padded, or stops too early. -/
theorem zip_all_iff (start numbers : List ℕ) :
    ((start.zip numbers).all fun (this, other) => this == other) = true ↔
      PaddedPrefix start numbers ∨ Truncates numbers start := by
  induction start generalizing numbers with
  | nil => simp [PaddedPrefix]
  | cons n start ih =>
      cases numbers with
      | nil =>
          simp only [List.zip_nil_right, List.all_nil, true_iff]
          by_cases hzero : ∀ m ∈ n :: start, m = 0
          · exact .inl (paddedPrefix_of_zero hzero)
          · right
            push Not at hzero
            exact ⟨n :: start, rfl, hzero⟩
      | cons m numbers =>
          rw [List.zip_cons_cons, List.all_cons, Bool.and_eq_true, ih]
          simp only [beq_iff_eq, PaddedPrefix, List.headD_cons, List.tail_cons,
            Truncates, List.cons_append, List.cons.injEq]
          constructor
          · rintro ⟨rfl, hprefix | ⟨rest, hrest, hne⟩⟩
            · exact .inl ⟨rfl, hprefix⟩
            · exact .inr ⟨rest, ⟨rfl, hrest⟩, hne⟩
          · rintro (⟨rfl, hprefix⟩ | ⟨rest, ⟨rfl, hrest⟩, hne⟩)
            · exact ⟨rfl, .inl hprefix⟩
            · exact ⟨rfl, .inr ⟨rest, hrest, hne⟩⟩

end Uv.Core.Order
