import Uv.Client.CachePolicy

/-!
# Freshness of cached responses

The age and the lifetime of a response as the caching standard defines them, over
the integers, and when the decision of the cache is the one they call for.

The cache measures what is left of the lifetime from the clock instead of from the
age when a request asks for a response that stays fresh for some time.  All other
differences need clocks that run backwards, an `Expires` header before the date of
the response, or an age of more than 64 bits.
-/

namespace Uv.Client.CachePolicy

/-! ## The standard -/

section Standard

variable (policy : CachePolicy) (now : ℕ) (request : HttpRequest)

def apparentAge : ℤ :=
  max 0 ((policy.response.unixTimestamp : ℤ) - policy.response.headerDate)

def responseDelay : ℤ :=
  (policy.response.unixTimestamp : ℤ) - policy.request.unixTimestamp

def correctedAgeValue : ℤ := policy.response.headerAge + policy.responseDelay

def correctedInitialAge : ℤ := max policy.apparentAge policy.correctedAgeValue

def residentTime : ℤ := (now : ℤ) - policy.response.unixTimestamp

/-- The age of the response. -/
def currentAge : ℤ := policy.correctedInitialAge + policy.residentTime now

/-- The freshness lifetime; the heuristic one of a response with a `Last-Modified`
header is ten minutes. -/
def lifetime : ℤ :=
  let headers := policy.response.headers
  match if policy.config.shared then headers.cc.sMaxageSeconds else none with
  | some sMaxage => sMaxage
  | none =>
      match headers.cc.maxAgeSeconds with
      | some maxAge => maxAge
      | none =>
          match headers.expiresUnixTimestamp with
          | some expires => (expires : ℤ) - policy.response.headerDate
          | none => if headers.lastModifiedUnixTimestamp.isSome then 600 else 0

/-- The directives of the request allow the response. -/
def AllowedByRequest : Prop :=
  (cacheControlOf request.headers).noCache = false ∧
    (∀ maxAge ∈ (cacheControlOf request.headers).maxAgeSeconds,
      policy.currentAge now ≤ maxAge) ∧
    ∀ minFresh ∈ (cacheControlOf request.headers).minFreshSeconds,
      (minFresh : ℤ) ≤ policy.lifetime - policy.currentAge now

/-- The response is fresh, or the stored request allows it to be this stale. -/
def FreshOrAllowedStale : Prop :=
  policy.currentAge now ≤ policy.lifetime ∨
    policy.response.headers.cc.mustRevalidate = false ∧
      ∃ maxStale ∈ policy.request.headers.cc.maxStaleSeconds,
        policy.currentAge now - policy.lifetime ≤ maxStale

/-- The response may be used without revalidation. -/
def Reusable : Prop :=
  (policy.response.headers.cc.immutable = true ∨ policy.AllowedByRequest now request) ∧
    policy.FreshOrAllowedStale now

end Standard

/-! ## The decision -/

section Decision

variable (policy : CachePolicy) (now : ℕ) (request : HttpRequest)

/-- How much staleness the stored request and the response allow. -/
def slack : ℕ :=
  if policy.response.headers.cc.mustRevalidate then 0
  else policy.request.headers.cc.maxStaleSeconds.getD 0

/-- The age and the lifetime are within the limits, and so is every time for which
the response has to stay fresh. -/
def Accepts (age lifetime : ℤ) (keeps : ℕ → Prop) : Prop :=
  (policy.response.headers.cc.immutable = true ∨
    (cacheControlOf request.headers).noCache = false ∧
      (∀ maxAge ∈ (cacheControlOf request.headers).maxAgeSeconds, age ≤ maxAge) ∧
      ∀ minFresh ∈ (cacheControlOf request.headers).minFreshSeconds, keeps minFresh) ∧
    age ≤ lifetime + policy.slack

theorem reusable_iff : policy.Reusable now request ↔
    policy.Accepts request (policy.currentAge now) policy.lifetime
      fun minFresh => policy.currentAge now + minFresh ≤ policy.lifetime := by
  unfold Reusable Accepts AllowedByRequest
  apply and_congr
  · apply or_congr_right
    apply and_congr_right
    intro _
    apply and_congr_right
    intro _
    apply forall₂_congr
    intro minFresh _
    omega
  · unfold FreshOrAllowedStale slack
    cases policy.response.headers.cc.mustRevalidate <;>
      cases policy.request.headers.cc.maxStaleSeconds <;> (simp; try omega)

theorem allowsStale_iff (hstale : policy.freshnessLifetime < policy.age now) :
    policy.allowsStale now = true ↔
      policy.age now ≤ policy.freshnessLifetime + policy.slack := by
  unfold allowsStale slack
  cases policy.response.headers.cc.mustRevalidate with
  | true => simpa using hstale
  | false =>
      cases policy.request.headers.cc.maxStaleSeconds with
      | none => simpa using hstale
      | some maxStale =>
          simp only [Bool.false_eq_true, if_false, decide_eq_true_eq, Option.getD_some]
          omega

theorem isFresh_iff : policy.isFresh now request = true ↔
    policy.Accepts request (policy.age now) policy.freshnessLifetime
      fun minFresh => minFresh = 0 ∨ now + minFresh ≤ policy.freshnessLifetime := by
  have hlimit : (if policy.freshnessLifetime < policy.age now then policy.allowsStale now
      else true) = true ↔
      (policy.age now : ℤ) ≤ policy.freshnessLifetime + policy.slack := by
    by_cases hstale : policy.freshnessLifetime < policy.age now
    · rw [if_pos hstale, allowsStale_iff policy now hstale]
      omega
    · rw [if_neg hstale]
      simp only [true_iff]
      omega
  have hmaxAge : ∀ maxAge : Option ℕ,
      (maxAge.any fun maxAge => decide (maxAge < policy.age now)) = false ↔
        ∀ limit ∈ maxAge, (policy.age now : ℤ) ≤ limit := by
    intro maxAge
    cases maxAge <;> simp
  have hminFresh : ∀ minFresh : Option ℕ, (minFresh.any fun minFresh =>
      decide (policy.freshnessLifetime - now < minFresh)) = false ↔
        ∀ time ∈ minFresh, time = 0 ∨ now + time ≤ policy.freshnessLifetime := by
    intro minFresh
    cases minFresh with
    | none => simp
    | some time =>
        simp only [Option.any_some, decide_eq_false_iff_not, Option.mem_some_iff,
          forall_eq']
        omega
  simp only [isFresh, Accepts]
  rw [← hlimit, ← hmaxAge, ← hminFresh]
  generalize cacheControlOf request.headers = reqcc
  cases policy.response.headers.cc.immutable with
  | true => simp
  | false =>
      cases hnoCache : reqcc.noCache with
      | true => simp
      | false =>
          simp only [Bool.not_false, Bool.true_and, Bool.false_eq_true, if_false,
            false_or, true_and]
          split
          · rename_i hover
            simp [hover]
          · rename_i hwithin
            rw [Bool.not_eq_true] at hwithin
            split
            · rename_i hover
              simp [hover]
            · rename_i hkeeps
              rw [Bool.not_eq_true] at hkeeps
              simp [hwithin, hkeeps]

/-! ## Where the decision is right -/

/-- The clocks run forwards, the response does not expire before its date, and its
age is a 64-bit number. -/
structure Ordinary : Prop where
  sent : policy.request.unixTimestamp ≤ policy.response.unixTimestamp
  received : policy.response.unixTimestamp ≤ now
  expires : 0 ≤ policy.lifetime
  fits : policy.currentAge now ≤ u64Max

/-- The response stays fresh for as long as the request asks for exactly if the
lifetime exceeds the clock by so much, or is stale and may not be used anyway. -/
def MinFreshHarmless : Prop :=
  policy.response.headers.cc.immutable = true ∨
    (cacheControlOf request.headers).noCache = true ∨
    (∃ maxAge ∈ (cacheControlOf request.headers).maxAgeSeconds,
      (maxAge : ℤ) < policy.currentAge now) ∨
    ∀ minFresh ∈ (cacheControlOf request.headers).minFreshSeconds,
      if policy.currentAge now + minFresh ≤ policy.lifetime then
        minFresh = 0 ∨ (now : ℤ) + minFresh ≤ policy.lifetime
      else
        policy.lifetime + policy.slack < policy.currentAge now ∨
          minFresh ≠ 0 ∧ policy.lifetime < (now : ℤ) + minFresh

variable {policy now request}

/-- Then the sums and differences are those of the standard. -/
theorem Ordinary.age_eq (hordinary : policy.Ordinary now) :
    (policy.age now : ℤ) = policy.currentAge now := by
  obtain ⟨hsent, hreceived, -, hfits⟩ := hordinary
  have happarent : ((policy.response.unixTimestamp - policy.response.headerDate : ℕ) : ℤ) =
      policy.apparentAge := by
    unfold apparentAge
    omega
  have hdelay : ((policy.response.unixTimestamp - policy.request.unixTimestamp : ℕ) : ℤ) =
      policy.responseDelay := by
    unfold responseDelay
    omega
  have hresident : ((now - policy.response.unixTimestamp : ℕ) : ℤ) =
      policy.residentTime now := by
    unfold residentTime
    omega
  unfold currentAge correctedInitialAge correctedAgeValue at hfits ⊢
  rw [← happarent, ← hdelay, ← hresident] at hfits ⊢
  simp only [age, wrappingAdd, saturatingAdd, u64Max] at hfits ⊢
  omega

theorem lifetime_eq (hexpires : 0 ≤ policy.lifetime) :
    (policy.freshnessLifetime : ℤ) = policy.lifetime := by
  simp only [freshnessLifetime, lifetime] at hexpires ⊢
  generalize (if policy.config.shared then policy.response.headers.cc.sMaxageSeconds
    else none) = sMaxage at hexpires ⊢
  cases sMaxage with
  | some sMaxage => rfl
  | none =>
      cases hmaxAge : policy.response.headers.cc.maxAgeSeconds with
      | some maxAge => rfl
      | none =>
          cases hheader : policy.response.headers.expiresUnixTimestamp with
          | some expires =>
              simp only [hmaxAge, hheader] at hexpires ⊢
              omega
          | none =>
              simp only
              split <;> rfl

/-- The condition under which the cache decides as the standard says.  Where the
clocks or the numbers are out of the ordinary, the inexact age and lifetime have to
be on the same side of the limits. -/
def DecidesRight (policy : CachePolicy) (now : ℕ) (request : HttpRequest) : Prop :=
  policy.Ordinary now ∧ policy.MinFreshHarmless now request ∨
    ¬ policy.Ordinary now ∧
      (policy.Accepts request (policy.age now) policy.freshnessLifetime
          (fun minFresh => minFresh = 0 ∨ now + minFresh ≤ policy.freshnessLifetime) ↔
        policy.Accepts request (policy.currentAge now) policy.lifetime
          fun minFresh => policy.currentAge now + minFresh ≤ policy.lifetime)

/-- With ordinary numbers the two decisions differ by `min-fresh` only. -/
theorem accepts_iff_minFreshHarmless (hordinary : policy.Ordinary now) :
    (policy.Accepts request (policy.age now) policy.freshnessLifetime
        (fun minFresh => minFresh = 0 ∨ now + minFresh ≤ policy.freshnessLifetime) ↔
      policy.Accepts request (policy.currentAge now) policy.lifetime
        fun minFresh => policy.currentAge now + minFresh ≤ policy.lifetime) ↔
      policy.MinFreshHarmless now request := by
  have hlifetime := lifetime_eq hordinary.expires
  have hkeeps : ∀ minFresh : ℕ, now + minFresh ≤ policy.freshnessLifetime ↔
      (now : ℤ) + minFresh ≤ policy.lifetime := by
    intro minFresh
    omega
  simp only [hordinary.age_eq, hlifetime, hkeeps, Accepts, MinFreshHarmless]
  generalize cacheControlOf request.headers = reqcc
  generalize policy.currentAge now = age
  generalize policy.lifetime = lifetime
  cases policy.response.headers.cc.immutable with
  | true => simp
  | false =>
      cases reqcc.noCache with
      | true => simp
      | false =>
          cases reqcc.minFreshSeconds with
          | none => simp
          | some minFresh =>
              cases reqcc.maxAgeSeconds with
              | none =>
                  simp only [Bool.false_eq_true, false_or, true_and, Option.mem_def,
                    reduceCtorEq, false_imp_iff, implies_true, Option.some.injEq,
                    forall_eq', false_and, exists_false]
                  split_ifs <;> omega
              | some maxAge =>
                  simp only [Bool.false_eq_true, false_or, true_and, Option.mem_def,
                    Option.some.injEq, forall_eq', exists_eq_left']
                  split_ifs <;> omega

end Decision

/-! ## A request for a fresh response -/

instance (policy : CachePolicy) (now : ℕ) (request : HttpRequest) :
    Decidable (policy.Reusable now request) := by
  unfold Reusable AllowedByRequest FreshOrAllowedStale
  infer_instance

/-- A request that wants the response to stay fresh for a minute. -/
def minuteRequest : HttpRequest :=
  ⟨ascii "https://pypi.org/simple/", .get, [(ascii "cache-control", ascii "min-fresh=60")]⟩

/-- A response, just received, that is fresh for ten minutes. -/
def tenMinutes : CachePolicy :=
  .build (fun _ => none) minuteRequest 1700000000
    ⟨200, [(ascii "cache-control", ascii "max-age=600")]⟩ 1700000000

end Uv.Client.CachePolicy
