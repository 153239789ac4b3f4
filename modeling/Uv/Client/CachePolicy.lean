import Uv.Client.CacheControl

/-!
# The HTTP cache policy

What is stored of a request and its response, and the decision whether the cached
response may be used for a new request.

Header maps are lists of lower-case names with their values in order, and dates are
read by a parser that is a parameter.  Clock values and timestamps are seconds; the
sums are those of the release build, which wrap at 64 bits.
-/

namespace Uv.Client

/-! ## Requests and responses -/

abbrev HeaderMap := List (Bytes × Bytes)

namespace HeaderMap

/-- The first value of a header. -/
def get (headers : HeaderMap) (name : Bytes) : Option Bytes := headers.lookup name

/-- All values of a header. -/
def getAll (headers : HeaderMap) (name : Bytes) : List Bytes :=
  (headers.filter (·.1 = name)).map (·.2)

def containsKey (headers : HeaderMap) (name : Bytes) : Bool :=
  headers.any (·.1 = name)

end HeaderMap

/-- `HeaderValue::to_str`: visible ASCII characters, spaces and tabs. -/
def toStr (value : Bytes) : Option Bytes :=
  if value.all fun byte => (32 ≤ byte && byte < 127) || byte == 9 then some value else none

/-- The method of a request; the methods whose responses are not cached are not
told apart. -/
inductive Method where
  | get
  | head
  | unrecognized
  deriving DecidableEq

structure HttpRequest where
  url : Bytes
  method : Method
  headers : HeaderMap

structure HttpResponse where
  status : ℕ
  headers : HeaderMap

/-! ## The stored policy -/

structure CacheConfig where
  shared : Bool

def CacheConfig.default : CacheConfig := ⟨false⟩

structure RequestHeaders where
  cc : CacheControl
  authorization : Bool

structure Request where
  uri : Bytes
  method : Method
  headers : RequestHeaders
  unixTimestamp : ℕ

structure ResponseHeaders where
  cc : CacheControl
  ageSeconds : Option ℕ
  dateUnixTimestamp : Option ℕ
  expiresUnixTimestamp : Option ℕ
  lastModifiedUnixTimestamp : Option ℕ

structure Response where
  status : ℕ
  headers : ResponseHeaders
  unixTimestamp : ℕ

structure VaryField where
  name : Bytes
  value : Bytes

structure Vary where
  fields : List VaryField

structure CachePolicy where
  config : CacheConfig
  request : Request
  response : Response
  vary : Vary

/-! ## Building a policy -/

def cacheControlOf (headers : HeaderMap) : CacheControl :=
  .fromHeaders (headers.getAll (ascii "cache-control"))

def RequestHeaders.fromHeaderMap (headers : HeaderMap) : RequestHeaders where
  cc := cacheControlOf headers
  authorization := headers.containsKey (ascii "authorization")

/-- `From<&reqwest::Request> for Request`; the clock is an argument. -/
def Request.fromRequest (now : ℕ) (request : HttpRequest) : Request where
  uri := request.url
  method := request.method
  headers := .fromHeaderMap request.headers
  unixTimestamp := now

section Dates

variable (parseDate : Bytes → Option ℕ)

/-- The date in a header. -/
def dateOf (headers : HeaderMap) (name : Bytes) : Option ℕ := do
  let header ← headers.get name
  let text ← toStr header
  parseDate text

def ResponseHeaders.fromHeaderMap (headers : HeaderMap) : ResponseHeaders where
  cc := cacheControlOf headers
  ageSeconds := (headers.get (ascii "age")).bind parseInt
  dateUnixTimestamp := dateOf parseDate headers (ascii "date")
  expiresUnixTimestamp := dateOf parseDate headers (ascii "expires")
  lastModifiedUnixTimestamp := dateOf parseDate headers (ascii "last-modified")

def Response.fromResponse (now : ℕ) (response : HttpResponse) : Response where
  status := response.status
  headers := .fromHeaderMap parseDate response.headers
  unixTimestamp := now

end Dates

namespace Vary

/-- A `Vary` header value that will never match any request. -/
def alwaysFailsToMatch : Vary := ⟨[⟨ascii "*", []⟩]⟩

def isSpace (byte : UInt8) : Bool := byte == 32 || byte == 9

/-- `trim`, on a header value. -/
def trim (text : Bytes) : Bytes :=
  (((text.dropWhile isSpace).reverse).dropWhile isSpace).reverse

/-- The names that the `Vary` headers of a response list. -/
def headerNames (response : HeaderMap) : List Bytes :=
  (response.getAll (ascii "vary")).flatMap fun header =>
    match toStr header with
    | none => []
    | some csv => (csv.splitOn 44).map fun name => (trim name).map toAsciiLowercase

def fromRequestResponseHeaders (request response : HeaderMap) : Vary :=
  let names := headerNames response
  -- A failed match is an inevitability, regardless of anything else.
  if names.contains (ascii "*") then alwaysFailsToMatch
  else ⟨names.map fun name => ⟨name, (request.get name).getD []⟩⟩

def matchesHeaders (vary : Vary) (requestHeaders : HeaderMap) : Bool :=
  vary.fields.all fun field =>
    field.name != ascii "*" && field.value == (requestHeaders.get field.name).getD []

end Vary

/-- `CachePolicyBuilder::new` for a request sent at one time and `build` for the
response received at another. -/
def CachePolicy.build (parseDate : Bytes → Option ℕ) (request : HttpRequest)
    (requestTime : ℕ) (response : HttpResponse) (responseTime : ℕ) : CachePolicy where
  config := .default
  request := .fromRequest requestTime request
  response := .fromResponse parseDate responseTime response
  vary := .fromRequestResponseHeaders request.headers response.headers

/-! ## Age and lifetime -/

/-- `u64::saturating_add`. -/
def saturatingAdd (a b : ℕ) : ℕ := min (a + b) u64Max

/-- `u64` addition in the release build. -/
def wrappingAdd (a b : ℕ) : ℕ := (a + b) % 2 ^ 64

namespace Response

def headerAge (response : Response) : ℕ := response.headers.ageSeconds.getD 0

def headerDate (response : Response) : ℕ :=
  response.headers.dateUnixTimestamp.getD response.unixTimestamp

def hasFinalStatus (response : Response) : Bool := 200 ≤ response.status

end Response

namespace CachePolicy

/-- How long it has been since the response was created.  Differences saturate at
zero. -/
def age (policy : CachePolicy) (now : ℕ) : ℕ :=
  let response := policy.response
  let apparentAge := response.unixTimestamp - response.headerDate
  let responseDelay := response.unixTimestamp - policy.request.unixTimestamp
  let correctedAgeValue := saturatingAdd response.headerAge responseDelay
  let correctedInitialAge := max apparentAge correctedAgeValue
  let residentAge := now - response.unixTimestamp
  wrappingAdd correctedInitialAge residentAge

/-- How long the response is considered fresh. -/
def freshnessLifetime (policy : CachePolicy) : ℕ :=
  let headers := policy.response.headers
  match if policy.config.shared then headers.cc.sMaxageSeconds else none with
  | some sMaxage => sMaxage
  | none =>
      match headers.cc.maxAgeSeconds with
      | some maxAge => maxAge
      | none =>
          match headers.expiresUnixTimestamp with
          | some expires => expires - policy.response.headerDate
          | none => if headers.lastModifiedUnixTimestamp.isSome then 600 else 0

/-- Whether a stale response may be served. -/
def allowsStale (policy : CachePolicy) (now : ℕ) : Bool :=
  if policy.response.headers.cc.mustRevalidate then false
  else
    match policy.request.headers.cc.maxStaleSeconds with
    | some maxStale => decide (policy.age now - policy.freshnessLifetime ≤ maxStale)
    | none => false

/-- Whether the cached response is fresh for the request. -/
def isFresh (policy : CachePolicy) (now : ℕ) (request : HttpRequest) : Bool :=
  let lifetime := policy.freshnessLifetime
  let age := policy.age now
  let reqcc := cacheControlOf request.headers
  -- An immutable response ignores the directives of the request.
  if !policy.response.headers.cc.immutable && reqcc.noCache then false
  else if !policy.response.headers.cc.immutable &&
      reqcc.maxAgeSeconds.any (fun maxAge => decide (maxAge < age)) then false
  else if !policy.response.headers.cc.immutable &&
      reqcc.minFreshSeconds.any (fun minFresh => decide (lifetime - now < minFresh)) then false
  else if lifetime < age then policy.allowsStale now
  else true

/-! ## Storable responses -/

def heuristicallyCacheableStatusCodes : List ℕ :=
  [200, 203, 204, 206, 300, 301, 308, 404, 405, 410, 414, 501]

def allowsAuthorizationStorage (policy : CachePolicy) : Bool :=
  let cc := policy.response.headers.cc
  cc.mustRevalidate || cc.isPublic || cc.sMaxageSeconds.isSome

/-- Whether the response is storable. -/
def isStorable (policy : CachePolicy) : Bool :=
  let request := policy.request
  let response := policy.response
  let cc := response.headers.cc
  if request.method = .unrecognized then false
  else if !response.hasFinalStatus then false
  else if response.status = 206 ∨ response.status = 304 then false
  else if request.headers.cc.noStore then false
  else if cc.noStore then false
  else if policy.config.shared && cc.isPrivate then false
  else if policy.config.shared && request.headers.authorization &&
      !policy.allowsAuthorizationStorage then false
  else if cc.isPublic then true
  else if !policy.config.shared && cc.isPrivate then true
  else if response.headers.expiresUnixTimestamp.isSome then true
  else if cc.maxAgeSeconds.isSome then true
  else if policy.config.shared && cc.sMaxageSeconds.isSome then true
  else heuristicallyCacheableStatusCodes.contains response.status

/-! ## Decisions -/

/-- What to do with a cached response; the builder for a new policy is left out. -/
inductive BeforeRequest where
  | fresh
  | stale
  | noMatch
  deriving DecidableEq

/-- What caching behavior is correct for a new request. -/
def beforeRequest (policy : CachePolicy) (now : ℕ) (request : HttpRequest) :
    BeforeRequest :=
  if !policy.isStorable then .noMatch
  else if policy.request.uri ≠ request.url then .noMatch
  else if request.method ≠ .get ∧ request.method ≠ .head then .noMatch
  else if !policy.vary.matchesHeaders request.headers then .stale
  else if policy.response.headers.cc.noCache then .stale
  else if policy.isFresh now request then .fresh
  else .stale

end CachePolicy

end Uv.Client
