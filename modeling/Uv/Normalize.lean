import Mathlib

/-!
# Names

Package, extra and group names are kept in a normalized form: lower case letters
and digits with single dashes between them.  An error of the source holds the
refused name; here it is `none`.
-/

namespace Uv

/-- One character of a name as `normalize` and `is_normalized` tell them apart. -/
inductive NameChar where
  | upper
  | plain
  | dash
  | punctuation
  | other
  deriving DecidableEq

def nameChar (c : Char) : NameChar :=
  if 'A' ≤ c ∧ c ≤ 'Z' then .upper
  else if ('a' ≤ c ∧ c ≤ 'z') ∨ ('0' ≤ c ∧ c ≤ '9') then .plain
  else if c = '-' then .dash
  else if c = '_' ∨ c = '.' then .punctuation
  else .other

/-- Whether a dash, underscore or dot was last. -/
def endsInPunctuation : Option Char → Bool
  | some c => nameChar c = .dash || nameChar c = .punctuation
  | none => false

/-- The loop of `normalize`: what is left, the last character read and the name
so far. -/
def normalizeLoop : List Char → Option Char → List Char → Option (List Char)
  | [], last, normalized =>
      if endsInPunctuation last then none else some normalized
  | c :: rest, last, normalized =>
      match nameChar c with
      | .upper => normalizeLoop rest (some c) (normalized ++ [c.toLower])
      | .plain => normalizeLoop rest (some c) (normalized ++ [c])
      | .dash | .punctuation =>
          match last with
          | none => none
          | some l =>
              if endsInPunctuation (some l) then
                normalizeLoop rest (some c) normalized
              else normalizeLoop rest (some c) (normalized ++ ['-'])
      | .other => none

def normalize (name : List Char) : Option (List Char) :=
  normalizeLoop name none []

/-- The loop of `is_normalized`. -/
def isNormalizedLoop : List Char → Option Char → Option Bool
  | [], last => if endsInPunctuation last then none else some true
  | c :: rest, last =>
      match nameChar c with
      | .upper => some false
      | .plain => isNormalizedLoop rest (some c)
      | .punctuation => some false
      | .dash =>
          match last with
          | none => none
          | some l => if l = '-' then some false else isNormalizedLoop rest (some c)
      | .other => none

/-- Whether the name is normalized already; `none` when it is not a name. -/
def isNormalized (name : List Char) : Option Bool := isNormalizedLoop name none

/-- `validate_and_normalize_ref`. -/
def validateAndNormalize (name : List Char) : Option (List Char) :=
  match isNormalized name with
  | none => none
  | some true => some name
  | some false => normalize name

/-- A normalized name. -/
structure Name where
  text : List Char
  normalized : isNormalized text = some true
  deriving DecidableEq

abbrev PackageName := Name

abbrev ExtraName := Name

abbrev GroupName := Name

end Uv
