import Uv.Auth.Cache

/-!
# What the credentials cache returns

Of what was inserted, which credentials are found for a realm, and for a URL.
-/

set_option linter.unusedSectionVars false

namespace Uv.Auth.CredentialsCache

variable {Signer : Type} {inserts : List (Url × Authentication Signer)} {cache : CredentialsCache Signer}
  {url : Url} {credentials : Authentication Signer} {realm : Realm} {username : Username}
  {segments : List Text}

/-! ## Realms and paths -/

theorem getRealm_eq_some (hget : cache.getRealm realm username = some credentials) :
    cache.realms (realm, username) = some credentials ∧
      (username.isSome → credentials.password.isSome) := by
  rw [getRealm] at hget
  cases hentry : cache.realms (realm, username) with
  | none =>
      rw [hentry] at hget
      cases hget
  | some found =>
      rw [hentry] at hget
      dsimp only at hget
      split_ifs at hget with hpassword
      · cases hget
        constructor
        · rfl
        · intro huser
          rw [huser, Bool.true_and, Option.isNone_iff_eq_none] at hpassword
          exact Option.isSome_iff_ne_none.mpr hpassword

theorem getUrl_eq_some (hget : cache.getUrl url username = some credentials) :
    cache.urls.get url.components = some credentials := by
  rw [getUrl] at hget
  cases hfound : cache.urls.get url.components with
  | none =>
      rw [hfound] at hget
      cases hget
  | some found =>
      rw [hfound] at hget
      dsimp only at hget
      split_ifs at hget
      exact hget

/-- A user name to look for is kept with a password only. -/
theorem username_of_toUsername {user : Text} (hname : credentials.toUsername = some user) :
    credentials.username = some user := by
  cases credentials with
  | signer => cases hname
  | credentials given =>
      cases given with
      | bearer => cases hname
      | basic name secret => exact hname

/-- Credentials stay with their realm, and with the paths below theirs. -/
theorem never_leaves (inserts : List (Url × Authentication Signer)) :
    (∀ realm username credentials,
      (ofInserts inserts).getRealm realm username = some credentials →
        (∃ url, (url, credentials) ∈ inserts ∧ Realm.ofUrl url = realm) ∧
          ∀ user, username = some user →
            credentials.username = some user ∧ credentials.password.isSome) ∧
    ∀ url username credentials, (ofInserts inserts).getUrl url username = some credentials →
      ∃ stored, (stored, credentials) ∈ inserts ∧ stored.scheme = url.scheme ∧
        stored.host = url.host ∧ stored.port = url.port ∧ stored.segments <+: url.segments := by
  constructor
  · intro realm username credentials hget
    obtain ⟨hentry, hpassword⟩ := getRealm_eq_some hget
    obtain ⟨hinserted, husername⟩ := realms_ofInserts hentry
    apply And.intro hinserted
    rintro user rfl
    have hname := husername.resolve_left (Option.some_ne_none user)
    exact ⟨username_of_toUsername hname.symm, hpassword rfl⟩
  · intro url username credentials hget
    obtain ⟨found, hstarts, htopmost⟩ := urls_get_eq_some_iff.mp (getUrl_eq_some hget)
    obtain ⟨stored, hmem, hrealm, hsegments⟩ := exists_of_latest htopmost.latest
    injection hrealm with hscheme hhost hport
    exact ⟨stored, hmem, hscheme, hhost, hport, hsegments ▸ hstarts⟩

/-! ## The most specific URL -/

/-- The path of an inserted URL that the URL is at or below. -/
def Covers (inserts : List (Url × Authentication Signer)) (url : Url) (found : List Text) : Prop :=
  found <+: url.segments ∧ (latest inserts (Realm.ofUrl url) found).isSome

/-- The result is what was last inserted for the longest path that covers the URL, if any. -/
structure MostSpecific (inserts : List (Url × Authentication Signer)) (url : Url)
    (result : Option (Authentication Signer)) : Prop where
  longest : ∀ found, Covers inserts url found →
    (∀ other, Covers inserts url other → other.length ≤ found.length) →
      result = latest inserts (Realm.ofUrl url) found
  none : (∀ found, ¬ Covers inserts url found) → result = none

theorem Topmost.covers {found : List Text}
    (htopmost : Topmost inserts (Realm.ofUrl url) found credentials)
    (hstarts : found <+: url.segments) : Covers inserts url found :=
  ⟨hstarts, by rw [htopmost.latest]; rfl⟩

/-- The trie returns what belongs to the shortest path. -/
theorem get_of_shortest {found : List Text} (hcovers : Covers inserts url found)
    (hshortest : ∀ other, Covers inserts url other → found.length ≤ other.length) :
    (ofInserts inserts).urls.get url.components = latest inserts (Realm.ofUrl url) found := by
  obtain ⟨hstarts, hsome⟩ := hcovers
  obtain ⟨credentials, hlatest⟩ := Option.isSome_iff_exists.mp hsome
  rw [hlatest, urls_get_eq_some_iff]
  refine ⟨found, hstarts, hlatest, ?_⟩
  intro shorter hshorter hne
  by_contra hsome
  have hother : Covers inserts url shorter :=
    ⟨hshorter.trans hstarts, Option.isSome_iff_ne_none.mpr hsome⟩
  exact hne (hshorter.eq_of_length_le (hshortest shorter hother))

theorem exists_shortest {found : List Text} (hcovers : Covers inserts url found) :
    ∃ shortest, Covers inserts url shortest ∧
      ∀ other, Covers inserts url other → shortest.length ≤ other.length := by
  obtain ⟨shortest, hshortest, hmin⟩ := (measure List.length).wf.has_min
    {other | Covers inserts url other} ⟨found, hcovers⟩
  exact ⟨shortest, hshortest, fun other hother => Nat.not_lt.mp (hmin other hother)⟩

/-- The trie returns the most specific credentials if those of the shortest and of the longest
path are the same. -/
theorem get_mostSpecific_iff (inserts : List (Url × Authentication Signer)) (url : Url) :
    MostSpecific inserts url ((ofInserts inserts).urls.get url.components) ↔
      ∀ shortest longest, Covers inserts url shortest → Covers inserts url longest →
        (∀ other, Covers inserts url other →
          shortest.length ≤ other.length ∧ other.length ≤ longest.length) →
        latest inserts (Realm.ofUrl url) shortest = latest inserts (Realm.ofUrl url) longest := by
  constructor
  · intro hspecific shortest longest hshortest hlongest hbetween
    rw [← get_of_shortest hshortest fun other hother => (hbetween other hother).1]
    exact hspecific.longest longest hlongest fun other hother => (hbetween other hother).2
  · intro hsame
    constructor
    case longest =>
      intro longest hlongest hmax
      obtain ⟨shortest, hshortest, hmin⟩ := exists_shortest hlongest
      rw [get_of_shortest hshortest hmin]
      exact hsame shortest longest hshortest hlongest
        fun other hother => ⟨hmin other hother, hmax other hother⟩
    case none =>
      intro hnone
      rw [Option.eq_none_iff_forall_not_mem]
      intro credentials hget
      obtain ⟨found, hstarts, htopmost⟩ := urls_get_eq_some_iff.mp hget
      exact hnone found (htopmost.covers hstarts)

theorem head?_root : "/".toList.head? = some '/' := rfl

/-- The credentials of a host, and others of a path of it. -/
def hostAndPath : List (Url × Authentication Unit) :=
  [(hostUrl "/".toList head?_root, .credentials (.bearer [1])),
    (hostUrl "/foo".toList rfl, .credentials (.bearer [2]))]

/-- Those of the host are found for the path, although they were not the last ones there. -/
theorem get_not_mostSpecific : ¬ MostSpecific hostAndPath (hostUrl "/foo".toList rfl)
    ((ofInserts hostAndPath).urls.get (hostUrl "/foo".toList rfl).components) := by
  intro hspecific
  have hsegments : (hostUrl "/foo".toList rfl).segments = ["foo".toList] := by decide
  have hcovers : Covers hostAndPath (hostUrl "/foo".toList rfl) ["foo".toList] := by
    constructor
    · rw [hsegments]
    · rfl
  have hlongest := hspecific.longest _ hcovers fun other hother => by
    have hlength := hother.1.length_le
    rwa [hsegments] at hlength
  have hget : (ofInserts hostAndPath).urls.get (hostUrl "/foo".toList rfl).components =
      some (.credentials (.bearer [1])) := rfl
  have hlatest : latest hostAndPath (Realm.ofUrl (hostUrl "/foo".toList rfl)) ["foo".toList] =
      some (.credentials (.bearer [2])) := rfl
  rw [hget, hlatest] at hlongest
  have htoken := Authentication.credentials.inj (Option.some.inj hlongest)
  exact absurd htoken (by decide)

/-! ## A username only -/

/-- What was found had a password, a token or a signer, and what is found now has not. -/
def Downgrade (before after : Option (Authentication Signer)) : Prop :=
  before.any (·.isAuthenticated) ∧ ¬ after.any (·.isAuthenticated)

def usernameOnly (user : Text) : Authentication Signer := .credentials (.basic (some user) none)

/-- A username only is inserted, and what authenticates is found as before. -/
def KeepsAuthenticated (cache : CredentialsCache Signer) (url : Url) (user : Text) : Prop :=
  (∀ realm username, ¬ Downgrade (cache.getRealm realm username)
    ((cache.insert url (usernameOnly user)).getRealm realm username)) ∧
  ∀ other username, ¬ Downgrade (cache.getUrl other username)
    ((cache.insert url (usernameOnly user)).getUrl other username)

theorem not_downgrade_self (found : Option (Authentication Signer)) : ¬ Downgrade found found :=
  fun hdowngrade => hdowngrade.2 hdowngrade.1

variable {user : Text}

theorem insert_usernameOnly_realms (key : Realm × Username) :
    (cache.insert url (usernameOnly user)).realms key =
      if (key.1 = Realm.ofUrl url ∧ (key.2 = none ∨ key.2 = some user)) ∧
          ((cache.realms key).all (·.password.isNone)) then
        some (usernameOnly user)
      else cache.realms key := by
  rw [insert_realms rfl, ← ite_and]
  rfl

theorem getRealm_congr {cache' : CredentialsCache Signer}
    (heq : cache'.realms (realm, username) = cache.realms (realm, username)) :
    cache'.getRealm realm username = cache.getRealm realm username := by
  rw [getRealm, heq, getRealm]

/-- Only the entry without a username can be lost, if it authenticates without a password. -/
theorem realms_kept_iff : (∀ realm username, ¬ Downgrade (cache.getRealm realm username)
      ((cache.insert url (usernameOnly user)).getRealm realm username)) ↔
    ∀ credentials, cache.realms (Realm.ofUrl url, none) = some credentials →
      credentials.isAuthenticated → credentials.password.isSome := by
  constructor
  · intro hkept credentials hentry hauthenticated
    by_contra hpassword
    apply hkept (Realm.ofUrl url) none
    have hafter : (cache.insert url (usernameOnly user)).realms (Realm.ofUrl url, none) =
        some (usernameOnly user) := by
      rw [insert_usernameOnly_realms, if_pos]
      apply And.intro ⟨rfl, Or.inl rfl⟩
      rw [hentry]
      simpa using hpassword
    rw [getRealm, getRealm, hentry, hafter]
    exact ⟨hauthenticated, Bool.false_ne_true⟩
  · intro hpasswords realm username hdowngrade
    obtain ⟨credentials, hget, hauthenticated⟩ := (Option.any_eq_true _ _).mp hdowngrade.1
    obtain ⟨hentry, hpassword⟩ := getRealm_eq_some hget
    have hsome : (realm = Realm.ofUrl url ∧ (username = none ∨ username = some user)) →
        credentials.password.isSome := by
      rintro ⟨rfl, rfl | rfl⟩
      · exact hpasswords credentials hentry hauthenticated
      · exact hpassword rfl
    have hsame : (cache.insert url (usernameOnly user)).realms (realm, username) =
        cache.realms (realm, username) := by
      rw [insert_usernameOnly_realms, if_neg]
      rintro ⟨hkey, hall⟩
      rw [hentry] at hall
      have hnone : credentials.password.isNone = true := hall
      rw [Option.isNone_iff_eq_none] at hnone
      have hkeep := hsome hkey
      rw [hnone] at hkeep
      cases hkeep
    rw [getRealm_congr hsame] at hdowngrade
    exact not_downgrade_self _ hdowngrade

theorem latest_usernameOnly : latest (inserts ++ [(url, usernameOnly user)]) realm segments =
    if Realm.ofUrl url = realm ∧ url.segments = segments then some (usernameOnly user)
    else latest inserts realm segments := by
  rw [latest_append]
  apply if_congr _ rfl rfl
  have hempty : ¬ (usernameOnly user : Authentication Signer).isEmpty = true := Bool.false_ne_true
  rw [and_iff_left hempty]

/-- What is topmost stays so, unless the URL is above it. -/
theorem Topmost.usernameOnly {found : List Text}
    (htopmost : Topmost inserts realm found credentials)
    (hbelow : ¬ (Realm.ofUrl url = realm ∧ url.segments <+: found)) :
    Topmost (inserts ++ [(url, usernameOnly user)]) realm found credentials where
  latest := by
    rw [latest_usernameOnly, if_neg, htopmost.latest]
    rintro ⟨hrealm, hsegments⟩
    exact hbelow ⟨hrealm, hsegments ▸ List.prefix_rfl⟩
  none_above shorter hshorter hne := by
    rw [latest_usernameOnly, if_neg, htopmost.none_above shorter hshorter hne]
    rintro ⟨hrealm, hsegments⟩
    exact hbelow ⟨hrealm, hsegments ▸ hshorter⟩

/-- The username takes the place of all that is topmost at or below the URL. -/
theorem topmost_usernameOnly {stored : List Text} (hstored : url.segments <+: stored)
    (htopmost : Topmost inserts (Realm.ofUrl url) stored credentials) :
    Topmost (inserts ++ [(url, usernameOnly user)]) (Realm.ofUrl url) url.segments
      (usernameOnly user) where
  latest := by rw [latest_usernameOnly, if_pos ⟨rfl, rfl⟩]
  none_above shorter hshorter hne := by
    rw [latest_usernameOnly, if_neg fun h => hne h.2.symm]
    apply htopmost.none_above shorter (hshorter.trans hstored)
    rintro rfl
    exact hne (hshorter.eq_of_length_le hstored.length_le)

theorem getUrl_congr {cache' : CredentialsCache Signer}
    (heq : cache'.urls.get url.components = cache.urls.get url.components) :
    cache'.getUrl url username = cache.getUrl url username := by
  rw [getUrl, heq, getUrl]

/-- The credentials that are topmost at or below the URL are lost. -/
theorem urls_kept_iff : (∀ other username, ¬ Downgrade ((ofInserts inserts).getUrl other username)
      (((ofInserts inserts).insert url (usernameOnly user)).getUrl other username)) ↔
    ∀ stored credentials, url.segments <+: stored →
      Topmost inserts (Realm.ofUrl url) stored credentials → ¬ credentials.isAuthenticated := by
  rw [← ofInserts_append]
  constructor
  · intro hkept stored credentials hstored htopmost hauthenticated
    obtain ⟨below, _, hrealm, hsegments⟩ := exists_of_latest htopmost.latest
    have hbefore : (ofInserts inserts).urls.get below.components = some credentials :=
      urls_get_eq_some_iff.mpr
        ⟨stored, hsegments ▸ List.prefix_rfl, hrealm ▸ htopmost⟩
    have hafter : (ofInserts (inserts ++ [(url, usernameOnly user)])).urls.get below.components =
        some (usernameOnly user) :=
      urls_get_eq_some_iff.mpr
        ⟨url.segments, hsegments ▸ hstored, hrealm ▸ topmost_usernameOnly hstored htopmost⟩
    apply hkept below none
    rw [getUrl, getUrl, hbefore, hafter]
    exact ⟨hauthenticated, Bool.false_ne_true⟩
  · intro hnone other username hdowngrade
    obtain ⟨credentials, hget, hauthenticated⟩ := (Option.any_eq_true _ _).mp hdowngrade.1
    have hbefore := getUrl_eq_some hget
    obtain ⟨found, hstarts, htopmost⟩ := urls_get_eq_some_iff.mp hbefore
    have hbelow : ¬ (Realm.ofUrl url = Realm.ofUrl other ∧ url.segments <+: found) := by
      rintro ⟨hrealm, hfound⟩
      exact hnone found credentials hfound (hrealm ▸ htopmost) hauthenticated
    have hafter : (ofInserts (inserts ++ [(url, usernameOnly user)])).urls.get other.components =
        some credentials :=
      urls_get_eq_some_iff.mpr ⟨found, hstarts, htopmost.usernameOnly hbelow⟩
    rw [getUrl_congr (hafter.trans hbefore.symm)] at hdowngrade
    exact not_downgrade_self _ hdowngrade

/-- A username only takes the place of what authenticates: in the realm, of a token or a signer;
in the trie, of all that is topmost at or below the URL. -/
theorem keepsAuthenticated_iff (inserts : List (Url × Authentication Signer)) (url : Url)
    (user : Text) : KeepsAuthenticated (ofInserts inserts) url user ↔
      (∀ credentials, (ofInserts inserts).realms (Realm.ofUrl url, none) = some credentials →
        credentials.isAuthenticated → credentials.password.isSome) ∧
      ∀ stored credentials, url.segments <+: stored →
        Topmost inserts (Realm.ofUrl url) stored credentials → ¬ credentials.isAuthenticated :=
  and_congr realms_kept_iff urls_kept_iff

/-- A token is lost to a username, in the realm and for the URL. -/
theorem not_keepsAuthenticated : ¬ KeepsAuthenticated
    (ofInserts [(hostUrl "/".toList rfl, (.credentials (.bearer [1]) : Authentication Unit))])
    (hostUrl "/".toList rfl) "user".toList := by
  intro hkept
  apply hkept.1 (Realm.ofUrl (hostUrl "/".toList rfl)) none
  exact ⟨rfl, Bool.false_ne_true⟩

end Uv.Auth.CredentialsCache
