import Uv.Auth.Realm

/-!
# Credentials

Credentials are a username with a password, or a token; a request may also be authenticated by
a signer.
-/

namespace Uv.Auth

/-- A username; `new` makes none of an empty text. -/
abbrev Username := Option Text

def Username.new (value : Option Text) : Username := value.filter (!·.isEmpty)

abbrev Byte := UInt8

inductive Credentials where
  | basic (username : Username) (password : Option Text)
  | bearer (token : List Byte)
  deriving DecidableEq

namespace Credentials

def username : Credentials → Option Text
  | .basic name _ => name
  | .bearer _ => none

def toUsername : Credentials → Username
  | .basic name _ => name
  | .bearer _ => none

def password : Credentials → Option Text
  | .basic _ secret => secret
  | .bearer _ => none

def isAuthenticated : Credentials → Bool
  | .basic _ secret => secret.isSome
  | .bearer token => !token.isEmpty

def isEmpty : Credentials → Bool
  | .basic name secret => name.isNone && secret.isNone
  | .bearer token => token.isEmpty

end Credentials

/-- Credentials, or a signer of another kind. -/
inductive Authentication (Signer : Type) where
  | credentials (credentials : Credentials)
  | signer (signer : Signer)

namespace Authentication

variable {Signer : Type}

def password : Authentication Signer → Option Text
  | .credentials basic => basic.password
  | .signer _ => none

def username : Authentication Signer → Option Text
  | .credentials basic => basic.username
  | .signer _ => none

def toUsername : Authentication Signer → Username
  | .credentials basic => basic.toUsername
  | .signer _ => none

def isAuthenticated : Authentication Signer → Bool
  | .credentials basic => basic.isAuthenticated
  | .signer _ => true

def isEmpty : Authentication Signer → Bool
  | .credentials basic => basic.isEmpty
  | .signer _ => false

end Authentication

end Uv.Auth
