import Uv.Auth.Credentials

/-!
# Credentials in URLs and headers

Reading credentials may panic; the panics are here by their messages.
-/

namespace Uv.Auth

/-- A result, or the message of a panic. -/
abbrev OrPanic (α : Type) := Except String α

/-! ## Bytes -/

/-- The bytes of a text in UTF-8. -/
def textBytes (text : Text) : List Byte := text.flatMap String.utf8EncodeChar

def decodeUtf8 (bytes : List Byte) : Option Text :=
  bytes.toByteArray.utf8Decode?.map Array.toList

theorem decodeUtf8_textBytes (text : Text) : decodeUtf8 (textBytes text) = some text := by
  have hencode : (textBytes text).toByteArray = text.utf8Encode := rfl
  rw [decodeUtf8, hencode, List.utf8Decode?_utf8Encode]
  rfl

def hexDigit (byte : Byte) : Option Byte :=
  if 48 ≤ byte ∧ byte ≤ 57 then some (byte - 48)
  else if 65 ≤ byte ∧ byte ≤ 70 then some (byte - 55)
  else if 97 ≤ byte ∧ byte ≤ 102 then some (byte - 87)
  else none

/-- A percent sign with two digits is a byte; other percent signs stay. -/
def percentDecode : List Byte → List Byte
  | [] => []
  | [byte] => [byte]
  | [byte, next] => [byte, next]
  | byte :: high :: low :: rest =>
      if byte = 37 then
        match hexDigit high, hexDigit low with
        | some highDigit, some lowDigit => (highDigit * 16 + lowDigit) :: percentDecode rest
        | _, _ => byte :: percentDecode (high :: low :: rest)
      else byte :: percentDecode (high :: low :: rest)

/-- `percent_decode_str` and `decode_utf8`. -/
def percentDecodeUtf8 (text : Text) : Option Text := decodeUtf8 (percentDecode (textBytes text))

def stripPrefix : List Byte → List Byte → Option (List Byte)
  | [], bytes => some bytes
  | _ :: _, [] => none
  | first :: rest, byte :: bytes => if first = byte then stripPrefix rest bytes else none

theorem stripPrefix_append (start bytes : List Byte) :
    stripPrefix start (start ++ bytes) = some bytes := by
  induction start with
  | nil => rfl
  | cons first rest ih => rw [List.cons_append, stripPrefix, if_pos rfl, ih]

/-- The parts before and after the first colon. -/
def splitOnce (text : Text) : Option (Text × Text) :=
  match text.dropWhile (· ≠ ':') with
  | [] => none
  | _ :: rest => some (text.takeWhile (· ≠ ':'), rest)

theorem splitOnce_append {name : Text} (hcolon : ':' ∉ name) (rest : Text) :
    splitOnce (name ++ ':' :: rest) = some (name, rest) := by
  have hname : ∀ c ∈ name, decide (c ≠ ':') = true := by
    intro c hc
    exact decide_eq_true fun heq => hcolon (heq ▸ hc)
  have hdrop : (name ++ ':' :: rest).dropWhile (· ≠ ':') = ':' :: rest := by
    rw [List.dropWhile_append_of_pos hname]
    rfl
  have htake : (name ++ ':' :: rest).takeWhile (· ≠ ':') = name := by
    rw [List.takeWhile_append_of_pos hname]
    exact List.append_nil name
  rw [splitOnce, hdrop, htake]

/-- The standard alphabet of base64. -/
structure Base64 where
  encode : List Byte → List Byte
  decode : List Byte → Option (List Byte)

/-- A visible byte, a space or a tab. -/
def isHeaderByte (byte : Byte) : Bool := (32 ≤ byte && byte ≠ 127) || byte = 9

/-- The bytes are encoded for a header, and decoded again. -/
structure Base64.RoundTrips (base64 : Base64) (bytes : List Byte) : Prop where
  decode_encode : base64.decode (base64.encode bytes) = some bytes
  header : (base64.encode bytes).all isHeaderByte

/-- `HeaderValue::from_bytes`. -/
def headerFromBytes (bytes : List Byte) (message : String) : OrPanic (List Byte) :=
  if bytes.all isHeaderByte then .ok bytes else .error message

structure Request where
  url : Url
  authorization : Option (List Byte)

namespace Credentials

def basicStart : List Byte := "Basic ".toList.map fun c => c.toNat.toUInt8

def bearerStart : List Byte := "Bearer ".toList.map fun c => c.toNat.toUInt8

def fromUrlUsername (url : Url) : OrPanic Username :=
  if url.username.isEmpty then .ok (.new none)
  else
    match percentDecodeUtf8 url.username with
    | some username => .ok (.new (some username))
    | none => .error "An encoded username should always decode"

def fromUrlPassword (url : Url) : OrPanic (Option Text) :=
  match url.password with
  | none => .ok none
  | some password =>
      match percentDecodeUtf8 password with
      | some password => .ok (some password)
      | none => .error "An encoded password should always decode"

def fromUrl (url : Url) : OrPanic (Option Credentials) :=
  if url.username.isEmpty && url.password.isNone then .ok none
  else do
    let username ← fromUrlUsername url
    let password ← fromUrlPassword url
    return some (.basic username password)

def fromBasic (base64 : Base64) (value : List Byte) : OrPanic (Option Credentials) :=
  match (base64.decode value).bind decodeUtf8 with
  | none => .error "HTTP Basic Authentication should be base64 encoded"
  | some text =>
      match splitOnce text with
      | none => .error "HTTP Basic Authentication should include a `:` separator"
      | some (username, password) =>
          let username := if username.isEmpty then none else some username
          let password := if password.isEmpty then none else some password
          .ok (some (.basic (.new username) password))

def fromHeaderValue (base64 : Base64) (header : List Byte) : OrPanic (Option Credentials) :=
  match stripPrefix basicStart header with
  | some value => fromBasic base64 value
  | none =>
      match stripPrefix bearerStart header with
      | some token => .ok (some (.bearer token))
      | none => .ok none

def fromRequest (base64 : Base64) (request : Request) : OrPanic (Option Credentials) := do
  let credentials ← fromUrl request.url
  -- the question mark within the argument returns from the function
  match request.authorization with
  | none => return none
  | some header =>
      let others ← fromHeaderValue base64 header
      return credentials.or others

/-- What is encoded for a basic header. -/
def basicText (username : Username) (password : Option Text) : Text :=
  username.getD [] ++ ':' :: password.getD []

def toHeaderValue (base64 : Base64) : Credentials → OrPanic (List Byte)
  | .basic username password =>
      headerFromBytes (basicStart ++ base64.encode (textBytes (basicText username password)))
        "base64 is always valid HeaderValue"
  | .bearer token =>
      headerFromBytes (bearerStart ++ token) "Bearer token is always valid HeaderValue"

/-! ## URLs -/

/-- The parts of the URL are texts when they are decoded. -/
def UrlDecodes (url : Url) : Prop :=
  (percentDecodeUtf8 url.username).isSome ∧
    ∀ password ∈ url.password, (percentDecodeUtf8 password).isSome

theorem fromUrl_of_decodes {url : Url} (hdecodes : UrlDecodes url) :
    ∃ credentials, fromUrl url = .ok credentials := by
  obtain ⟨hname, hsecret⟩ := hdecodes
  obtain ⟨name, hname⟩ := Option.isSome_iff_exists.mp hname
  obtain ⟨username, husername⟩ : ∃ username, fromUrlUsername url = .ok username := by
    rw [fromUrlUsername, hname]
    split_ifs
    · exact ⟨_, rfl⟩
    · exact ⟨_, rfl⟩
  obtain ⟨password, hpassword⟩ : ∃ password, fromUrlPassword url = .ok password := by
    rw [fromUrlPassword]
    cases hurl : url.password with
    | none => exact ⟨_, rfl⟩
    | some encoded =>
        obtain ⟨secret, hsecret⟩ := Option.isSome_iff_exists.mp (hsecret encoded hurl)
        dsimp only
        rw [hsecret]
        exact ⟨_, rfl⟩
  rw [fromUrl, husername, hpassword]
  split_ifs
  · exact ⟨_, rfl⟩
  · exact ⟨_, rfl⟩

/-! ## Headers -/

/-- A header has no username and no password that is there and empty. -/
def withoutEmpty : Credentials → Credentials
  | .basic username password => .basic (.new username) (password.filter (!·.isEmpty))
  | .bearer token => .bearer token

theorem headerFromBytes_of_all {bytes : List Byte} {message : String}
    (hbytes : bytes.all isHeaderByte) : headerFromBytes bytes message = .ok bytes := by
  rw [headerFromBytes, if_pos hbytes]

theorem basic_survives {base64 : Base64} {username : Username} {password : Option Text}
    (hcolon : ∀ name ∈ username, ':' ∉ name)
    (hbase64 : base64.RoundTrips (textBytes (basicText username password))) :
    (do
      let header ← toHeaderValue base64 (.basic username password)
      fromHeaderValue base64 header) = .ok (some (.basic (.new username)
        (password.filter (!·.isEmpty)))) := by
  have hname : ':' ∉ username.getD [] := by
    cases username with
    | none => exact List.not_mem_nil
    | some name => exact hcolon name rfl
  have hheader : (basicStart ++ base64.encode (textBytes (basicText username password))).all
      isHeaderByte := by
    rw [List.all_append, hbase64.header, Bool.and_true]
    decide
  rw [toHeaderValue, headerFromBytes_of_all hheader]
  change fromHeaderValue base64 (basicStart ++ _) = _
  rw [fromHeaderValue, stripPrefix_append]
  dsimp only
  rw [fromBasic, hbase64.decode_encode, Option.bind_some, decodeUtf8_textBytes]
  dsimp only
  rw [basicText, splitOnce_append hname]
  cases username with
  | none =>
      cases password with
      | none => rfl
      | some secret => cases secret <;> rfl
  | some name =>
      cases name with
      | nil =>
          cases password with
          | none => rfl
          | some secret => cases secret <;> rfl
      | cons first name =>
          cases password with
          | none => rfl
          | some secret => cases secret <;> rfl

theorem bearer_survives {base64 : Base64} {token : List Byte} (htoken : token.all isHeaderByte) :
    (do
      let header ← toHeaderValue base64 (.bearer token)
      fromHeaderValue base64 header) = .ok (some (.bearer token)) := by
  have hheader : (bearerStart ++ token).all isHeaderByte := by
    rw [List.all_append, htoken, Bool.and_true]
    decide
  rw [toHeaderValue, headerFromBytes_of_all hheader]
  change fromHeaderValue base64 (bearerStart ++ token) = _
  have hbasic : stripPrefix basicStart (bearerStart ++ token) = none := rfl
  rw [fromHeaderValue, hbasic]
  dsimp only
  rw [stripPrefix_append]

/-- The bytes of a token stand in a header. -/
def FitsHeader : Credentials → Prop
  | .basic _ _ => True
  | .bearer token => token.all isHeaderByte

/-- What is written for basic credentials is decoded again. -/
def RoundTrips (base64 : Base64) : Credentials → Prop
  | .basic username password => base64.RoundTrips (textBytes (basicText username password))
  | .bearer _ => True

theorem header_survives {base64 : Base64} {credentials : Credentials}
    (hcolon : ∀ name ∈ credentials.username, ':' ∉ name) (hfits : credentials.FitsHeader)
    (hbase64 : credentials.RoundTrips base64) :
    (do
      let header ← credentials.toHeaderValue base64
      fromHeaderValue base64 header) = .ok (some credentials.withoutEmpty) := by
  cases credentials with
  | basic username password => exact basic_survives hcolon hbase64
  | bearer token => exact bearer_survives hfits

/-! ## Requests -/

/-- What the header of a request has. -/
def ofAuthorization (base64 : Base64) (request : Request) : OrPanic (Option Credentials) :=
  match request.authorization with
  | none => .ok none
  | some header => fromHeaderValue base64 header

theorem fromRequest_of_none {base64 : Base64} {request : Request}
    (hurl : fromUrl request.url = .ok none) :
    fromRequest base64 request = ofAuthorization base64 request := by
  rw [fromRequest, hurl, ofAuthorization]
  change (match request.authorization with
    | none => _
    | some header => _) = _
  cases request.authorization with
  | none => rfl
  | some header =>
      dsimp only
      cases fromHeaderValue base64 header <;> rfl

theorem fromRequest_of_some {base64 : Base64} {request : Request} {credentials : Credentials}
    {others : Option Credentials} {header : List Byte}
    (hurl : fromUrl request.url = .ok (some credentials))
    (hauthorization : request.authorization = some header)
    (hheader : fromHeaderValue base64 header = .ok others) :
    fromRequest base64 request = .ok (some credentials) := by
  rw [fromRequest, hurl, hauthorization]
  change (fromHeaderValue base64 header >>= _) = _
  rw [hheader]
  rfl

/-- Credentials are read from a URL that decodes, are written to a header and read from it
without what is empty, and those of the URL come before those of a readable header. -/
theorem transport (base64 : Base64) :
    (∀ url, UrlDecodes url → ∃ credentials, fromUrl url = .ok credentials) ∧
    (∀ credentials : Credentials, (∀ name ∈ credentials.username, ':' ∉ name) →
      credentials.FitsHeader → credentials.RoundTrips base64 →
        (do
          let header ← credentials.toHeaderValue base64
          fromHeaderValue base64 header) = .ok (some credentials.withoutEmpty)) ∧
    ∀ request,
      (fromUrl request.url = .ok none →
        fromRequest base64 request = ofAuthorization base64 request) ∧
      ∀ credentials header others, fromUrl request.url = .ok (some credentials) →
        request.authorization = some header → fromHeaderValue base64 header = .ok others →
          fromRequest base64 request = .ok (some credentials) := by
  apply And.intro
  · intro url hdecodes
    exact fromUrl_of_decodes hdecodes
  apply And.intro
  · intro credentials hcolon hfits hbase64
    exact header_survives hcolon hfits hbase64
  · intro request
    apply And.intro fromRequest_of_none
    intro credentials header others hurl hauthorization hheader
    exact fromRequest_of_some hurl hauthorization hheader

/-- The standard alphabet at two texts. -/
def twoTexts : Base64 where
  encode bytes :=
    if bytes = textBytes "u:p".toList then textBytes "dTpw".toList
    else if bytes = textBytes "u:".toList then textBytes "dTo=".toList
    else []
  decode bytes :=
    if bytes = textBytes "dTpw".toList then some (textBytes "u:p".toList)
    else if bytes = textBytes "dTo=".toList then some (textBytes "u:".toList)
    else none

def userUrl (username : Text) (password : Option Text) : Url :=
  { hostUrl "/".toList rfl with username := username, password := password }

def userHeader : List Byte := basicStart ++ textBytes "dTpw".toList

theorem transport_user :
    (∃ credentials, fromUrl (userUrl "u".toList (some "p".toList)) = .ok credentials) ∧
    (do
      let header ← toHeaderValue twoTexts (.basic (some "u".toList) (some "p".toList))
      fromHeaderValue twoTexts header) = .ok (some (.basic (some "u".toList) (some "p".toList))) ∧
    fromRequest twoTexts ⟨hostUrl "/".toList rfl, some userHeader⟩ =
      ofAuthorization twoTexts ⟨hostUrl "/".toList rfl, some userHeader⟩ ∧
    fromRequest twoTexts ⟨userUrl "u".toList (some "p".toList), some userHeader⟩ =
      .ok (some (.basic (some "u".toList) (some "p".toList))) := by
  obtain ⟨hurl, hheader, hrequest⟩ := transport twoTexts
  apply And.intro
  · exact hurl _ ⟨by decide +kernel, by decide +kernel⟩
  apply And.intro
  · exact hheader (.basic (some "u".toList) (some "p".toList)) (by decide) trivial
      ⟨by decide +kernel, by decide +kernel⟩
  apply And.intro
  · exact (hrequest _).1 rfl
  · exact (hrequest _).2 (.basic (some "u".toList) (some "p".toList)) userHeader
      (some (.basic (some "u".toList) (some "p".toList))) (by decide +kernel) rfl
      (by decide +kernel)

/-- An escape that is no text panics, an empty password is lost, and so are credentials of a URL
without a header. -/
theorem not_transport :
    fromUrl (userUrl "%FF".toList none) = .error "An encoded username should always decode" ∧
    (do
      let header ← toHeaderValue twoTexts (.basic (some "u".toList) (some []))
      fromHeaderValue twoTexts header) ≠ .ok (some (.basic (some "u".toList) (some []))) ∧
    fromUrl (userUrl "u".toList (some "p".toList)) =
      .ok (some (.basic (some "u".toList) (some "p".toList))) ∧
    fromRequest twoTexts ⟨userUrl "u".toList (some "p".toList), none⟩ = .ok none := by
  decide +kernel

end Credentials

end Uv.Auth
