import Uv.Client.CachePolicy
import Uv.Client.Directives

/-!
# Malformed caching headers

A response with malformed `Cache-Control` headers is stored with `must-revalidate`,
and an invalid `Expires` header is dropped.  `must-revalidate` only forbids the use
of a stale response: within its lifetime the response is still used as fresh.
-/

namespace Uv.Client

open CacheControlParser

namespace CachePolicy

/-- The request has directives that rule the cached response out. -/
def RefusedByRequest (policy : CachePolicy) (now : ℕ) (request : HttpRequest) : Prop :=
  policy.response.headers.cc.immutable = false ∧
    ((cacheControlOf request.headers).noCache = true ∨
      (∃ maxAge ∈ (cacheControlOf request.headers).maxAgeSeconds,
        maxAge < policy.age now) ∨
      ∃ minFresh ∈ (cacheControlOf request.headers).minFreshSeconds,
        policy.freshnessLifetime - now < minFresh)

/-- The cached response is not used, however old it is. -/
def TurnedAway (policy : CachePolicy) (now : ℕ) (request : HttpRequest) : Prop :=
  policy.isStorable = false ∨ policy.request.uri ≠ request.url ∨
    request.method = .unrecognized ∨ policy.vary.matchesHeaders request.headers = false ∨
    policy.response.headers.cc.noCache = true ∨ policy.RefusedByRequest now request

theorem isFresh_eq_false_iff (policy : CachePolicy) (now : ℕ) (request : HttpRequest) :
    policy.isFresh now request = false ↔ policy.RefusedByRequest now request ∨
      policy.freshnessLifetime < policy.age now ∧ policy.allowsStale now = false := by
  simp only [isFresh, RefusedByRequest]
  generalize cacheControlOf request.headers = reqcc
  have hany : ∀ (seconds : Option ℕ) (p : ℕ → Prop) [DecidablePred p],
      (seconds.any fun n => decide (p n)) = true ↔ ∃ n ∈ seconds, p n := by
    intro seconds p _
    cases seconds <;> simp
  rw [← hany, ← hany]
  cases policy.response.headers.cc.immutable with
  | true => simp
  | false =>
      cases reqcc.noCache with
      | true => simp
      | false =>
          simp only [Bool.not_false, Bool.true_and, Bool.false_eq_true, if_false,
            false_or, true_and]
          split
          · rename_i hover
            simp [hover]
          · rename_i hwithin
            split
            · rename_i hover
              simp [hover]
            · rename_i hkeeps
              simp [hwithin, hkeeps]

theorem beforeRequest_ne_fresh_iff (policy : CachePolicy) (now : ℕ)
    (request : HttpRequest) :
    policy.beforeRequest now request ≠ .fresh ↔ policy.TurnedAway now request ∨
      policy.freshnessLifetime < policy.age now ∧ policy.allowsStale now = false := by
  have hmethod : (request.method ≠ .get ∧ request.method ≠ .head) ↔
      request.method = .unrecognized := by
    cases request.method <;> simp
  have hfresh := policy.isFresh_eq_false_iff now request
  simp only [beforeRequest, TurnedAway, hmethod]
  split_ifs <;> simp_all

end CachePolicy

/-- There is an `Expires` header, but no valid date in it. -/
def InvalidExpires (parseDate : Bytes → Option ℕ) (headers : HeaderMap) : Prop :=
  (headers.get (ascii "expires")).isSome = true ∧
    dateOf parseDate headers (ascii "expires") = none

/-- The lifetime of a response without an `Expires` header. -/
def CachePolicy.lifetimeWithoutExpires (policy : CachePolicy) : ℕ :=
  match policy.response.headers.cc.maxAgeSeconds with
  | some maxAge => maxAge
  | none => if policy.response.headers.lastModifiedUnixTimestamp.isSome then 600 else 0

section Build

variable (parseDate : Bytes → Option ℕ) (request : HttpRequest) (requestTime : ℕ)
  (response : HttpResponse) (responseTime now : ℕ) (incoming : HttpRequest)

/-- A response with malformed headers is not used as fresh if and only if it is
turned away anyway or its lifetime is over. -/
theorem beforeRequest_malformed {policy : CachePolicy}
    (hpolicy :
      policy = CachePolicy.build parseDate request requestTime response responseTime) :
    (Malformed (response.headers.getAll (ascii "cache-control")) →
      (policy.beforeRequest now incoming ≠ .fresh ↔
        policy.TurnedAway now incoming ∨ policy.freshnessLifetime < policy.age now)) ∧
    (InvalidExpires parseDate response.headers →
      (policy.beforeRequest now incoming ≠ .fresh ↔
        policy.TurnedAway now incoming ∨
          policy.lifetimeWithoutExpires < policy.age now ∧
            policy.allowsStale now = false)) := by
  subst hpolicy
  set policy := CachePolicy.build parseDate request requestTime response responseTime
  constructor
  · intro hmalformed
    have hstale : policy.allowsStale now = false := by
      have hrevalidate : policy.response.headers.cc.mustRevalidate = true :=
        CacheControl.mustRevalidate_fromHeaders hmalformed
      rw [CachePolicy.allowsStale, if_pos hrevalidate]
    rw [CachePolicy.beforeRequest_ne_fresh_iff, hstale]
    simp
  · rintro ⟨-, hinvalid⟩
    have hlifetime : policy.freshnessLifetime = policy.lifetimeWithoutExpires := by
      have hexpires : policy.response.headers.expiresUnixTimestamp = none := hinvalid
      have hshared : policy.config.shared = false := rfl
      cases hage : policy.response.headers.cc.maxAgeSeconds <;>
        simp [CachePolicy.freshnessLifetime, CachePolicy.lifetimeWithoutExpires, hexpires,
          hshared, hage]
    rw [CachePolicy.beforeRequest_ne_fresh_iff, hlifetime]

end Build

/-! ## Two malformed responses -/

def simpleRequest : HttpRequest := ⟨ascii "https://pypi.org/simple/", .get, []⟩

/-- `max-age` is given twice. -/
def twoAges : HttpResponse :=
  ⟨200, [(ascii "cache-control", ascii "max-age=100, max-age=200")]⟩

/-- `Expires` is no date. -/
def expiresZero : HttpResponse := ⟨200, [(ascii "expires", ascii "0")]⟩

theorem malformed_twoAges :
    Malformed (twoAges.headers.getAll (ascii "cache-control")) := by
  intro hwell
  have hnames : names (headerItems (twoAges.headers.getAll (ascii "cache-control"))) =
      [ascii "max-age", ascii "max-age"] := by
    decide +kernel
  have hnodup := hwell.nodup
  rw [hnames] at hnodup
  simp at hnodup

/-- After a hundred seconds the response is revalidated. -/
theorem beforeRequest_malformed_twoAges :
    (CachePolicy.build (fun _ => none) simpleRequest 1000 twoAges 1000).beforeRequest
      1101 simpleRequest ≠ .fresh :=
  ((beforeRequest_malformed (fun _ => none) simpleRequest 1000 twoAges 1000 1101
    simpleRequest rfl).1 malformed_twoAges).mpr (.inr (by decide +kernel))

/-- Before that it is used as fresh, and so is one with an invalid `Expires`. -/
theorem beforeRequest_fresh_malformed :
    Malformed (twoAges.headers.getAll (ascii "cache-control")) ∧
      (CachePolicy.build (fun _ => none) simpleRequest 1000 twoAges 1000).beforeRequest
        1000 simpleRequest = .fresh ∧
      InvalidExpires (fun _ => none) expiresZero.headers ∧
      (CachePolicy.build (fun _ => none) simpleRequest 1000 expiresZero 1000).beforeRequest
        1000 simpleRequest = .fresh := by
  refine ⟨malformed_twoAges, ?_, ⟨?_, ?_⟩, ?_⟩
  all_goals decide +kernel

end Uv.Client
