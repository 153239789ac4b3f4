import Mathlib

/-!
# URLs and realms

Of a URL this has what authentication reads: its parts as the parser leaves them.  The fields
after the parts are what the parser promises: a scheme has no colon, a host is not empty and
has a colon only inside the brackets of an address, and the path of a hierarchical URL starts
with a slash.
-/

namespace Uv.Auth

abbrev Text := List Char

structure Url where
  scheme : Text
  /-- Percent-encoded, and empty if there is none. -/
  username : Text
  password : Option Text
  host : Option Text
  port : Option ℕ
  path : Text
  scheme_noColon : ':' ∉ scheme
  host_ne_nil : ∀ text ∈ host, text ≠ []
  host_bracket : ∀ text ∈ host, ':' ∈ text → text.getLast? = some ']'
  rooted : path.head? = some '/'

namespace Url

def defaultPort (scheme : Text) : Option ℕ :=
  if scheme = "http".toList ∨ scheme = "ws".toList then some 80
  else if scheme = "https".toList ∨ scheme = "wss".toList then some 443
  else if scheme = "ftp".toList then some 21
  else none

def portOrKnownDefault (url : Url) : Option ℕ := url.port.or (defaultPort url.scheme)

def pathSegments (url : Url) : List Text := (url.path.drop 1).splitOn '/'

/-- The path segments that are not empty. -/
def segments (url : Url) : List Text := url.pathSegments.filter (!·.isEmpty)

end Url

/-- The URL of a path of one host. -/
def hostUrl (path : Text) (hpath : path.head? = some '/') : Url where
  scheme := "https".toList
  username := []
  password := none
  host := some "a".toList
  port := none
  path := path
  scheme_noColon := by decide
  host_ne_nil := by
    intro text htext
    cases htext
    exact List.cons_ne_nil _ _
  host_bracket := by
    intro text htext
    cases htext
    decide
  rooted := hpath

structure Realm where
  scheme : Text
  host : Option Text
  port : Option ℕ
  deriving DecidableEq

namespace Realm

def ofUrl (url : Url) : Realm := ⟨url.scheme, url.host, url.port⟩

def portText (port : Option ℕ) : Text :=
  match port with
  | some port => ':' :: Nat.toDigits 10 port
  | none => []

/-- `Display for Realm`. -/
def display (realm : Realm) : Text :=
  realm.scheme ++ "://".toList ++ (realm.host.getD [] ++ portText realm.port)

/-! ## Printing -/

/-- What stands before the first colon is unique. -/
theorem append_colon_inj {left left' right right' : Text} (hleft : ':' ∉ left)
    (hleft' : ':' ∉ left') (heq : left ++ ':' :: right = left' ++ ':' :: right') :
    left = left' ∧ right = right' := by
  induction left generalizing left' with
  | nil =>
      cases left' with
      | nil => exact ⟨rfl, (List.cons.inj heq).2⟩
      | cons c left' =>
          have hc : ':' = c := (List.cons.inj heq).1
          exact absurd (hc ▸ List.mem_cons_self) hleft'
  | cons c left ih =>
      cases left' with
      | nil =>
          have hc : c = ':' := (List.cons.inj heq).1
          exact absurd (hc ▸ List.mem_cons_self) hleft
      | cons c' left' =>
          obtain ⟨rfl, hrest⟩ := List.cons.inj heq
          obtain ⟨rfl, hright⟩ := ih (fun h => hleft (List.mem_cons_of_mem _ h))
            (fun h => hleft' (List.mem_cons_of_mem _ h)) hrest
          exact ⟨rfl, hright⟩

theorem toDigits_noColon (port : ℕ) : ':' ∉ Nat.toDigits 10 port := by
  intro hcolon
  have hdigit := Nat.isDigit_of_mem_toDigits (by decide) (by decide) hcolon
  exact absurd hdigit (by decide)

/-- A host is not mistaken for one with a port. -/
theorem host_ne_append_port {host host' : Text} (hbracket : ':' ∈ host → host.getLast? = some ']')
    (port : ℕ) : host ≠ host' ++ portText (some port) := by
  intro heq
  have hcolon : ':' ∈ host := by
    rw [heq]
    exact List.mem_append_right _ List.mem_cons_self
  have hlast := hbracket hcolon
  have hne : Nat.toDigits 10 port ≠ [] := Nat.toDigits_ne_nil
  obtain ⟨last, hlastDigit⟩ : ∃ last, (Nat.toDigits 10 port).getLast? = some last :=
    ⟨_, List.getLast?_eq_getLast_of_ne_nil hne⟩
  have hdigits : host.getLast? = some last := by
    rw [heq, portText, List.getLast?_append, List.getLast?_cons, hlastDigit]
    rfl
  rw [hlast, Option.some.injEq] at hdigits
  have hdigit := Nat.isDigit_of_mem_toDigits (by decide) (by decide)
    (List.mem_of_getLast? hlastDigit)
  rw [← hdigits] at hdigit
  exact absurd hdigit (by decide)

theorem append_port_inj {host host' : Text} {port port' : Option ℕ}
    (hbracket : ':' ∈ host → host.getLast? = some ']')
    (hbracket' : ':' ∈ host' → host'.getLast? = some ']')
    (heq : host ++ portText port = host' ++ portText port') : host = host' ∧ port = port' := by
  cases port with
  | none =>
      cases port' with
      | none => exact ⟨by simpa [portText] using heq, rfl⟩
      | some port' =>
          have hhost : host = host' ++ portText (some port') := by
            simpa [portText] using heq
          exact absurd hhost (host_ne_append_port hbracket port')
  | some port =>
      cases port' with
      | none =>
          have hhost : host ++ portText (some port) = host' := by
            simpa [portText] using heq
          exact absurd hhost.symm (host_ne_append_port hbracket' port)
      | some port' =>
          -- the last colon is the one before the port
          have hreverse := congrArg List.reverse heq
          simp only [portText, List.reverse_append, List.reverse_cons, List.append_assoc,
            List.singleton_append] at hreverse
          obtain ⟨hport, hhost⟩ := append_colon_inj
            (by simpa using toDigits_noColon port) (by simpa using toDigits_noColon port') hreverse
          have hdigits : Nat.toDigits 10 port = Nat.toDigits 10 port' :=
            List.reverse_injective hport
          have hnumber := congrArg (Nat.ofDigitChars 10 · 0) hdigits
          simp only [Nat.ofDigitChars_ten_toDigits] at hnumber
          exact ⟨List.reverse_injective hhost, congrArg some hnumber⟩

theorem getD_bracket (url : Url) :
    ':' ∈ url.host.getD [] → (url.host.getD []).getLast? = some ']' := by
  cases hhost : url.host with
  | none => exact fun hcolon => absurd hcolon (List.not_mem_nil)
  | some text => exact url.host_bracket text hhost

/-- The printed realms of URLs are different if the realms are. -/
theorem display_ofUrl_inj {url url' : Url}
    (heq : (ofUrl url).display = (ofUrl url').display) : ofUrl url = ofUrl url' := by
  have hparts : url.scheme ++ ':' :: ("//".toList ++ (url.host.getD [] ++ portText url.port)) =
      url'.scheme ++ ':' :: ("//".toList ++ (url'.host.getD [] ++ portText url'.port)) := by
    simpa [display, ofUrl] using heq
  obtain ⟨hscheme, hrest⟩ := append_colon_inj url.scheme_noColon url'.scheme_noColon hparts
  obtain ⟨hhost, hport⟩ := append_port_inj (getD_bracket url) (getD_bracket url')
    (List.append_cancel_left hrest)
  have hhosts : url.host = url'.host := by
    cases hurl : url.host with
    | none =>
        cases hurl' : url'.host with
        | none => rfl
        | some text =>
            rw [hurl, hurl'] at hhost
            exact absurd hhost.symm (url'.host_ne_nil text hurl')
    | some text =>
        cases hurl' : url'.host with
        | none =>
            rw [hurl, hurl'] at hhost
            exact absurd hhost (url.host_ne_nil text hurl)
        | some text' =>
            rw [hurl, hurl'] at hhost
            exact congrArg some hhost
  rw [ofUrl, ofUrl, hscheme, hhosts, hport]

end Realm

end Uv.Auth
