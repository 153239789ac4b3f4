import Uv.Client.Freshness

/-!
# Ages beyond 64 bits

Both parts of the age of a response are bounded, and only their sum can leave the
64 bits.  It does once the clock has advanced past an `Age` header and a delay that
leave no room for the time since the response was received.
-/

namespace Uv.Client.CachePolicy

section Sum

variable (policy : CachePolicy) (now : ℕ)

/-- `corrected_initial_age`, as the code computes it. -/
def initialAge : ℕ :=
  max (policy.response.unixTimestamp - policy.response.headerDate)
    (saturatingAdd policy.response.headerAge
      (policy.response.unixTimestamp - policy.request.unixTimestamp))

/-- `resident_age`. -/
def residentAge : ℕ := now - policy.response.unixTimestamp

theorem age_eq_wrappingAdd :
    policy.age now = wrappingAdd policy.initialAge (policy.residentAge now) := rfl

/-- The age in a build with overflow checks, where a sum beyond 64 bits panics. -/
def checkedAge : Option ℕ :=
  if policy.initialAge + policy.residentAge now ≤ u64Max then
    some (policy.initialAge + policy.residentAge now)
  else none

/-- The clock has not advanced since the response was received, or the `Age` header,
the delay of the response and the time since then add up to a 64-bit number. -/
def AgeFits : Prop :=
  now ≤ policy.response.unixTimestamp ∨
    policy.response.headerAge +
        (policy.response.unixTimestamp - policy.request.unixTimestamp) +
        (now - policy.response.unixTimestamp) ≤ u64Max

end Sum

variable {policy : CachePolicy} {now later : ℕ}

theorem checkedAge_isSome_iff : (policy.checkedAge now).isSome = true ↔
    policy.initialAge + policy.residentAge now ≤ u64Max := by
  unfold checkedAge
  split <;> simp [*]

/-- Without an overflow the two builds agree. -/
theorem age_eq_add (hfits : policy.initialAge + policy.residentAge now ≤ u64Max) :
    policy.age now = policy.initialAge + policy.residentAge now := by
  rw [age_eq_wrappingAdd, wrappingAdd]
  apply Nat.mod_eq_of_lt
  rw [u64Max] at hfits
  omega

theorem residentAge_mono (hnow : now ≤ later) :
    policy.residentAge now ≤ policy.residentAge later :=
  Nat.sub_le_sub_right hnow _

/-- The time since the date of a response never leaves the 64 bits, so only the
header and the delay matter. -/
theorem sum_le_iff_ageFits (hreceived : policy.response.unixTimestamp ≤ u64Max)
    (hnow : now ≤ u64Max) :
    policy.initialAge + policy.residentAge now ≤ u64Max ↔ policy.AgeFits now := by
  simp only [initialAge, residentAge, AgeFits, saturatingAdd]
  omega

/-- The age neither overflows nor decreases between two moments exactly if it fits
in 64 bits at the later one. -/
theorem age_grows_iff (policy : CachePolicy) (now later : ℕ)
    (hreceived : policy.response.unixTimestamp ≤ u64Max) (hlater : later ≤ u64Max)
    (hnow : now ≤ later) :
    ((policy.checkedAge now).isSome = true ∧ (policy.checkedAge later).isSome = true ∧
        policy.age now ≤ policy.age later) ↔
      policy.AgeFits later := by
  rw [checkedAge_isSome_iff, checkedAge_isSome_iff, ← sum_le_iff_ageFits hreceived hlater]
  constructor
  · rintro ⟨-, hfits, -⟩
    exact hfits
  · intro hfits
    have hresident : policy.residentAge now ≤ policy.residentAge later :=
      residentAge_mono hnow
    have hearlier : policy.initialAge + policy.residentAge now ≤ u64Max := by omega
    refine ⟨hearlier, hfits, ?_⟩
    rw [age_eq_add hearlier, age_eq_add hfits]
    omega

/-- A response, just received, whose `Age` header is as large as it can be. -/
def ancient : CachePolicy :=
  .build (fun _ => none) minuteRequest 1700000000
    ⟨200, [(ascii "age", ascii "18446744073709551615")]⟩ 1700000000

/-- An hour later such a response is fine in a policy with a smaller header. -/
theorem age_grows_hour :
    (tenMinutes.checkedAge 1700000000).isSome = true ∧
      (tenMinutes.checkedAge 1700003600).isSome = true ∧
      tenMinutes.age 1700000000 ≤ tenMinutes.age 1700003600 :=
  (age_grows_iff tenMinutes 1700000000 1700003600 (by decide +kernel) (by decide +kernel)
    (by decide)).2 (by right; decide +kernel)

/-- A second later the oldest response is as good as new. -/
theorem age_ancient :
    ¬ ((ancient.checkedAge 1700000000).isSome = true ∧
      (ancient.checkedAge 1700000001).isSome = true ∧
      ancient.age 1700000000 ≤ ancient.age 1700000001) := by
  decide +kernel

end Uv.Client.CachePolicy
