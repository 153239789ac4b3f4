import Uv.Auth.Credentials
import Uv.Auth.UrlTrie

/-!
# The credentials cache

Credentials are kept for a realm and a username, and for a URL and everything below it.
-/

set_option linter.unusedSectionVars false

namespace Uv.Auth

open Function

variable {Signer : Type}

structure CredentialsCache (Signer : Type) where
  realms : Realm × Username → Option (Authentication Signer)
  urls : UrlTrie Text (Authentication Signer)

/-- The labels of a URL in the trie. -/
def Url.components (url : Url) : List Text := (Realm.ofUrl url).display :: url.segments

namespace CredentialsCache

def new : CredentialsCache Signer := ⟨fun _ => none, .new⟩

def getRealm (cache : CredentialsCache Signer) (realm : Realm) (username : Username) :
    Option (Authentication Signer) :=
  match cache.realms (realm, username) with
  | none => none
  | some credentials =>
      if username.isSome && credentials.password.isNone then none else some credentials

def getUrl (cache : CredentialsCache Signer) (url : Url) (username : Username) :
    Option (Authentication Signer) :=
  match cache.urls.get url.components with
  | some credentials =>
      if username.isNone || username = credentials.username then
        if username.isSome && credentials.password.isNone then none else some credentials
      else none
  | none => none

def insertRealm (cache : CredentialsCache Signer) (key : Realm × Username)
    (credentials : Authentication Signer) : CredentialsCache Signer :=
  if credentials.isEmpty then cache
  else if credentials.isAuthenticated then
    { cache with realms := update cache.realms key (some credentials) }
  else if (cache.realms key).all fun existing => existing.password.isNone then
    { cache with realms := update cache.realms key (some credentials) }
  else cache

def insert (cache : CredentialsCache Signer) (url : Url) (credentials : Authentication Signer) :
    CredentialsCache Signer :=
  if credentials.isEmpty then cache
  else
    let username := credentials.toUsername
    let cache :=
      if username.isSome then cache.insertRealm (Realm.ofUrl url, username) credentials
      else cache
    let cache := cache.insertRealm (Realm.ofUrl url, none) credentials
    { cache with urls := cache.urls.insert url.components credentials }

/-- The cache after some calls of `insert`. -/
def ofInserts (inserts : List (Url × Authentication Signer)) : CredentialsCache Signer :=
  inserts.foldl (fun cache entry => cache.insert entry.1 entry.2) new

/-! ## What one call changes -/

variable {cache : CredentialsCache Signer} {url : Url} {credentials : Authentication Signer}
  {key : Realm × Username} {realm : Realm} {username : Username}

theorem insertRealm_realms_ne {key' : Realm × Username} (hne : key' ≠ key) :
    (cache.insertRealm key credentials).realms key' = cache.realms key' := by
  rw [insertRealm]
  split_ifs
  · rfl
  · exact update_of_ne hne _ _
  · exact update_of_ne hne _ _
  · rfl

/-- An entry stays unless the new one authenticates or the old one has no password. -/
theorem insertRealm_realms (hempty : credentials.isEmpty = false) :
    (cache.insertRealm key credentials).realms key =
      if credentials.isAuthenticated || (cache.realms key).all (·.password.isNone) then
        some credentials
      else cache.realms key := by
  rw [insertRealm, hempty]
  simp only [Bool.false_eq_true, if_false]
  cases credentials.isAuthenticated with
  | true => exact update_self _ _ _
  | false =>
      simp only [Bool.false_eq_true, if_false, Bool.false_or]
      split_ifs
      · exact update_self _ _ _
      · rfl

theorem insertRealm_urls : (cache.insertRealm key credentials).urls = cache.urls := by
  rw [insertRealm]
  split_ifs <;> rfl

theorem insert_of_isEmpty (hempty : credentials.isEmpty = true) :
    cache.insert url credentials = cache := by
  rw [insert, if_pos hempty]

theorem insert_urls (hempty : credentials.isEmpty = false) :
    (cache.insert url credentials).urls = cache.urls.insert url.components credentials := by
  rw [insert, hempty]
  simp only [Bool.false_eq_true, if_false, insertRealm_urls]
  split_ifs
  · rw [insertRealm_urls]
  · rfl

/-- The keys that are written: the realm with no username, and with that of the credentials. -/
theorem insert_realms (hempty : credentials.isEmpty = false) (key : Realm × Username) :
    (cache.insert url credentials).realms key =
      if key.1 = Realm.ofUrl url ∧ (key.2 = none ∨ key.2 = credentials.toUsername) then
        if credentials.isAuthenticated || (cache.realms key).all (·.password.isNone) then
          some credentials
        else cache.realms key
      else cache.realms key := by
  have hurl : (cache.insert url credentials).realms key =
      ((if credentials.toUsername.isSome then
          cache.insertRealm (Realm.ofUrl url, credentials.toUsername) credentials
        else cache).insertRealm (Realm.ofUrl url, none) credentials).realms key := by
    rw [insert, hempty]
    rfl
  have hfirst : (if credentials.toUsername.isSome then
          cache.insertRealm (Realm.ofUrl url, credentials.toUsername) credentials
        else cache).realms key =
      if credentials.toUsername.isSome ∧ key = (Realm.ofUrl url, credentials.toUsername) then
        if credentials.isAuthenticated || (cache.realms key).all (·.password.isNone) then
          some credentials
        else cache.realms key
      else cache.realms key := by
    by_cases hsome : credentials.toUsername.isSome
    · rw [if_pos hsome]
      by_cases hkey : key = (Realm.ofUrl url, credentials.toUsername)
      · rw [if_pos ⟨hsome, hkey⟩, hkey]
        exact insertRealm_realms hempty
      · rw [if_neg (fun h => hkey h.2)]
        exact insertRealm_realms_ne hkey
    · rw [if_neg hsome, if_neg (fun h => hsome h.1)]
  rw [hurl]
  by_cases hnone : key = (Realm.ofUrl url, none)
  · have hother : ¬ (credentials.toUsername.isSome ∧
        key = (Realm.ofUrl url, credentials.toUsername)) := by
      rintro ⟨hsome, hkey⟩
      rw [hnone] at hkey
      rw [← (Prod.mk.inj hkey).2] at hsome
      cases hsome
    rw [if_neg hother] at hfirst
    have hwritten : key.1 = Realm.ofUrl url ∧ (key.2 = none ∨ key.2 = credentials.toUsername) := by
      rw [hnone]
      exact ⟨rfl, Or.inl rfl⟩
    rw [if_pos hwritten, ← hfirst, hnone]
    exact insertRealm_realms hempty
  · rw [insertRealm_realms_ne hnone, hfirst]
    apply if_congr _ rfl rfl
    constructor
    · rintro ⟨_, rfl⟩
      exact ⟨rfl, Or.inr rfl⟩
    · rintro ⟨hrealm, husername⟩
      have husername := husername.resolve_left fun hn => hnone (Prod.ext hrealm hn)
      constructor
      · rw [← husername, Option.isSome_iff_ne_none]
        exact fun hn => hnone (Prod.ext hrealm hn)
      · exact Prod.ext hrealm husername

/-! ## Sequences of calls -/

variable {inserts : List (Url × Authentication Signer)}

theorem ofInserts_append :
    ofInserts (inserts ++ [(url, credentials)]) = (ofInserts inserts).insert url credentials :=
  List.foldl_append

/-- An entry was inserted for a URL of its realm, and has the username of its key. -/
theorem realms_ofInserts (hentry : (ofInserts inserts).realms key = some credentials) :
    (∃ url, (url, credentials) ∈ inserts ∧ Realm.ofUrl url = key.1) ∧
      (key.2 = none ∨ key.2 = credentials.toUsername) := by
  induction inserts using List.reverseRecOn with
  | nil => cases hentry
  | append_singleton inserts entry ih =>
      obtain ⟨url, given⟩ := entry
      have hold : (ofInserts inserts).realms key = some credentials →
          (∃ url', (url', credentials) ∈ inserts ++ [(url, given)] ∧
            Realm.ofUrl url' = key.1) ∧ (key.2 = none ∨ key.2 = credentials.toUsername) := by
        intro hentry
        obtain ⟨⟨url', hmem, hrealm⟩, husername⟩ := ih hentry
        exact ⟨⟨url', List.mem_append_left _ hmem, hrealm⟩, husername⟩
      rw [ofInserts_append] at hentry
      cases hempty : given.isEmpty with
      | true =>
          rw [insert_of_isEmpty hempty] at hentry
          exact hold hentry
      | false =>
          rw [insert_realms hempty] at hentry
          split_ifs at hentry with hkey hreplace
          · cases hentry
            exact ⟨⟨url, by simp, hkey.1.symm⟩, hkey.2⟩
          · exact hold hentry
          · exact hold hentry

/-- The last credentials that were inserted for a realm and path segments. -/
def latest (inserts : List (Url × Authentication Signer)) (realm : Realm)
    (segments : List Text) : Option (Authentication Signer) :=
  inserts.foldl (fun found entry =>
    if Realm.ofUrl entry.1 = realm ∧ entry.1.segments = segments ∧ ¬ entry.2.isEmpty then
      some entry.2
    else found) none

variable {segments : List Text}

theorem latest_append : latest (inserts ++ [(url, credentials)]) realm segments =
    if Realm.ofUrl url = realm ∧ url.segments = segments ∧ ¬ credentials.isEmpty then
      some credentials
    else latest inserts realm segments :=
  List.foldl_append

theorem exists_of_latest (hlatest : latest inserts realm segments = some credentials) :
    ∃ url, (url, credentials) ∈ inserts ∧ Realm.ofUrl url = realm ∧ url.segments = segments := by
  induction inserts using List.reverseRecOn with
  | nil => cases hlatest
  | append_singleton inserts entry ih =>
      obtain ⟨url, given⟩ := entry
      rw [latest_append] at hlatest
      split_ifs at hlatest with hurl
      · cases hlatest
        exact ⟨url, by simp, hurl.1, hurl.2.1⟩
      · obtain ⟨url', hmem, hurl'⟩ := ih hlatest
        exact ⟨url', List.mem_append_left _ hmem, hurl'⟩

theorem components_eq_iff {url url' : Url} {segments : List Text} :
    (Realm.ofUrl url).display :: segments = url'.components ↔
      Realm.ofUrl url' = Realm.ofUrl url ∧ url'.segments = segments := by
  rw [Url.components, List.cons.injEq]
  apply and_congr
  · constructor
    · exact fun heq => (Realm.display_ofUrl_inj heq).symm
    · exact fun heq => by rw [heq]
  · exact eq_comm

theorem urls_append (hempty : credentials.isEmpty = false) :
    (ofInserts (inserts ++ [(url, credentials)])).urls =
      (ofInserts inserts).urls.insert url.components credentials := by
  rw [ofInserts_append, insert_urls hempty]

theorem urls_append_of_isEmpty (hempty : credentials.isEmpty = true) :
    ofInserts (inserts ++ [(url, credentials)]) = ofInserts inserts := by
  rw [ofInserts_append, insert_of_isEmpty hempty]

theorem tree_urls (inserts : List (Url × Authentication Signer)) :
    (ofInserts inserts).urls.Tree := by
  induction inserts using List.reverseRecOn with
  | nil => exact UrlTrie.tree_new
  | append_singleton inserts entry ih =>
      obtain ⟨url, given⟩ := entry
      cases hempty : given.isEmpty with
      | true => rwa [urls_append_of_isEmpty hempty]
      | false =>
          rw [urls_append hempty]
          exact UrlTrie.tree_insert ih _ _

/-- The trie has the last credentials for every realm and path. -/
theorem stores_urls : (ofInserts inserts).urls.Stores
      ((Realm.ofUrl url).display :: segments) credentials ↔
    latest inserts (Realm.ofUrl url) segments = some credentials := by
  induction inserts using List.reverseRecOn with
  | nil => exact iff_of_false UrlTrie.not_stores_new nofun
  | append_singleton inserts entry ih =>
      obtain ⟨url', given⟩ := entry
      rw [latest_append]
      cases hempty : given.isEmpty with
      | true =>
          rw [urls_append_of_isEmpty hempty, ih, if_neg (by simp)]
      | false =>
          rw [urls_append hempty, UrlTrie.stores_insert (tree_urls inserts)]
          simp only [components_eq_iff, Bool.false_eq_true, not_false_eq_true, and_true, ih]
          split_ifs
          · rw [Option.some.injEq, eq_comm]
          · rfl

theorem not_stores_root : ¬ (ofInserts inserts).urls.Stores [] credentials := by
  induction inserts using List.reverseRecOn with
  | nil => exact UrlTrie.not_stores_new
  | append_singleton inserts entry ih =>
      obtain ⟨url', given⟩ := entry
      cases hempty : given.isEmpty with
      | true => rwa [urls_append_of_isEmpty hempty]
      | false =>
          rw [urls_append hempty, UrlTrie.stores_insert (tree_urls inserts)]
          rwa [if_neg (by simp [Url.components])]

/-- The credentials of the shortest path that has some. -/
structure Topmost (inserts : List (Url × Authentication Signer)) (realm : Realm)
    (segments : List Text) (credentials : Authentication Signer) : Prop where
  latest : latest inserts realm segments = some credentials
  none_above : ∀ shorter, shorter <+: segments → shorter ≠ segments →
    CredentialsCache.latest inserts realm shorter = none

/-- The trie returns what is the topmost of all that are a prefix of the URL. -/
theorem urls_get_eq_some_iff : (ofInserts inserts).urls.get url.components = some credentials ↔
    ∃ found, found <+: url.segments ∧ Topmost inserts (Realm.ofUrl url) found credentials := by
  rw [UrlTrie.get_eq_some_iff_firstStored (tree_urls inserts) fun _ => not_stores_root]
  constructor
  · rintro ⟨found, hfound⟩
    cases found with
    | nil => exact absurd rfl hfound.ne_nil
    | cons label found =>
        obtain ⟨rfl, hstarts⟩ := List.cons_prefix_cons.mp hfound.starts
        refine ⟨found, hstarts, stores_urls.mp hfound.stores, ?_⟩
        intro shorter hshorter hne
        rw [Option.eq_none_iff_forall_not_mem]
        intro other hother
        apply hfound.shortest (_ :: shorter) (List.cons_prefix_cons.mpr ⟨rfl, hshorter⟩) (by simp)
          (fun heq => hne (List.cons.inj heq).2) other
        exact stores_urls.mpr hother
  · rintro ⟨found, hstarts, hlatest, habove⟩
    refine ⟨(Realm.ofUrl url).display :: found, List.cons_prefix_cons.mpr ⟨rfl, hstarts⟩,
      by simp, stores_urls.mpr hlatest, ?_⟩
    intro shorter hshorter hne hne' other hother
    cases shorter with
    | nil => exact hne rfl
    | cons label shorter =>
        obtain ⟨rfl, hstart⟩ := List.cons_prefix_cons.mp hshorter
        have hnone := habove shorter hstart fun heq => hne' (by rw [heq])
        rw [stores_urls.mp hother] at hnone
        cases hnone

end CredentialsCache

end Uv.Auth
