import Uv.NameGrammar
import Uv.PlatformTags.TagText
import Uv.Resolver.UniversalMarker

/-!
# Reading encoded conflict items

The name of a package may contain the delimiter of the fields and digits, so its
length is written before it.  What is encoded is read back as the same item, and
no two items have one encoding.
-/

namespace Uv.Resolver

open Uv.Core Uv.Pep508 Uv.PlatformTags

/-- What is wrong with the text of an encoded item. -/
inductive RawExtraError where
  | missingKind
  | missingLength
  | invalidLength (len : Text)
  | tooShort (len found : ℕ)
  | missingDelimiter (package : Text)
  | unrecognizedKind (kind : Text)
  deriving DecidableEq

def RawExtraError.reason : RawExtraError → String
  | .missingKind => "expected to find leading `package`, `extra-` or `group-`"
  | .missingLength =>
      "expected to find `\x7bnumber\x7d-` after leading `package-`, `extra-` or `group-`"
  | .invalidLength len =>
      "found package length number `" ++ String.ofList len ++
        "`, but could not parse into integer"
  | .tooShort len found =>
      "expected at least " ++ toString len ++ " bytes for package name, but found " ++
        toString found
  | .missingDelimiter package =>
      "expected `-` after package name `" ++ String.ofList package ++ "`"
  | .unrecognizedKind kind =>
      "unrecognized kind `" ++ String.ofList kind ++ "` (must be `extra` or `group`)"

/-- The errors for encoded items; a name that is refused is kept. -/
inductive ConflictMarkerError where
  | invalidExtra (reason : RawExtraError) (rawExtra : ExtraName)
  | invalidValue (kind : String) (name : Text)
  deriving DecidableEq

/-- An encoded item, taken apart but with its names not yet read. -/
inductive ParsedRawExtra where
  | project (package : Text)
  | extra (package extra : Text)
  | group (package group : Text)
  deriving DecidableEq

namespace ParsedRawExtra

/-- `split_at_checked`; the characters of a name are bytes. -/
def splitAtChecked (len : ℕ) (text : Text) : Option (Text × Text) :=
  if len ≤ text.length then some (text.splitAt len) else none

/-- The fields after the name of the package, by the kind of the item. -/
def ofFields (kind package tail : Text) : Except RawExtraError ParsedRawExtra :=
  if kind = "project".toList then .ok (.project package)
  else if kind = "extra".toList ∨ kind = "group".toList then
    match stripPrefix ['-'] tail with
    | none => .error (.missingDelimiter package)
    | some tail =>
        if kind = "extra".toList then .ok (.extra package tail)
        else .ok (.group package tail)
  else .error (.unrecognizedKind kind)

def parseText (raw : Text) : Except RawExtraError ParsedRawExtra :=
  match splitOnce '-' raw with
  | none => .error .missingKind
  | some (kind, tail) =>
      match splitOnce '-' tail with
      | none => .error .missingLength
      | some (len, tail) =>
          match parseUnsigned 64 len with
          | .error _ => .error (.invalidLength len)
          | .ok len =>
              match splitAtChecked len tail with
              | none => .error (.tooShort len tail.length)
              | some (package, tail) => ofFields kind package tail

def parse (rawExtra : ExtraName) : Except ConflictMarkerError ParsedRawExtra :=
  (parseText rawExtra.text).mapError fun reason => .invalidExtra reason rawExtra

def package : ParsedRawExtra → Text
  | project package => package
  | extra package _ => package
  | group package _ => package

/-- A name in an encoded item. -/
def readName (kind : String) (name : Text) : Except ConflictMarkerError Name :=
  match Name.fromStr name with
  | none => .error (.invalidValue kind name)
  | some name => .ok name

def toConflictItem (this : ParsedRawExtra) : Except ConflictMarkerError ConflictItem :=
  match readName "package" this.package with
  | .error err => .error err
  | .ok package =>
      match this with
      | project _ => .ok ⟨package, .project⟩
      | extra _ name => (readName "extra" name).map (ConflictItem.ofExtra package)
      | group _ name => (readName "group" name).map (ConflictItem.ofGroup package)

end ParsedRawExtra

/-! ## Encoded items are names -/

/-- The names of the item are not empty, and the length of the package's name is a
`usize`, as the length of any text is. -/
structure ConflictItem.Encodable (item : ConflictItem) : Prop where
  package : item.package.text ≠ []
  extra : ∀ extra, item.kind = .extra extra → extra.text ≠ []
  group : ∀ group, item.kind = .group group → group.text ≠ []
  length : item.package.text.length < 2 ^ 64

/-- After a letter or digit, a dash may follow and then another name. -/
theorem isNormalizedLoop_dash {before after : Text} {last : Char}
    (hbefore : isNormalizedLoop before (some last) = some true) :
    isNormalizedLoop (before ++ '-' :: after) (some last) =
      isNormalizedLoop after (some '-') := by
  have hdash : nameChar '-' = .dash := by decide
  induction before generalizing last with
  | nil =>
      have hlast : last ≠ '-' := by
        rintro rfl
        exact absurd hbefore (by decide)
      simp [isNormalizedLoop, hdash, hlast]
  | cons c before ih =>
      cases hc : nameChar c with
      | plain =>
          simp only [isNormalizedLoop, hc] at hbefore
          simp only [List.cons_append, isNormalizedLoop, hc]
          exact ih hbefore
      | dash =>
          simp only [isNormalizedLoop, hc] at hbefore
          split at hbefore
          · simp at hbefore
          · rename_i hlast
            simp only [List.cons_append, isNormalizedLoop, hc, if_neg hlast]
            exact ih hbefore
      | _ => simp [isNormalizedLoop, hc] at hbefore

theorem plain_of_isNormalized_cons {c : Char} {rest : Text}
    (hname : isNormalized (c :: rest) = some true) :
    nameChar c = .plain ∧ isNormalizedLoop rest (some c) = some true := by
  cases hc : nameChar c <;> simp [isNormalized, isNormalizedLoop, hc] at hname ⊢
  exact hname

/-- Two names with a dash between them are a name. -/
theorem isNormalized_dash {before after : Text} (hbefore : isNormalized before = some true)
    (hne : before ≠ []) (hafter : isNormalized after = some true) (hne' : after ≠ []) :
    isNormalized (before ++ '-' :: after) = some true := by
  obtain ⟨c, before, rfl⟩ := List.exists_cons_of_ne_nil hne
  obtain ⟨d, after, rfl⟩ := List.exists_cons_of_ne_nil hne'
  obtain ⟨hc, hbefore⟩ := plain_of_isNormalized_cons hbefore
  obtain ⟨hd, hafter⟩ := plain_of_isNormalized_cons hafter
  simp only [isNormalized, List.cons_append, isNormalizedLoop, hc]
  rw [isNormalizedLoop_dash hbefore]
  simpa only [isNormalizedLoop, hd] using hafter

theorem isNormalized_of_plain {name : Text} (hplain : ∀ c ∈ name, nameChar c = .plain) :
    isNormalized name = some true := by
  have hloop : ∀ last : Option Char, endsInPunctuation last = false →
      isNormalizedLoop name last = some true := by
    induction name with
    | nil => intro last hlast; simp [isNormalizedLoop, hlast]
    | cons c name ih =>
        intro last _
        obtain ⟨hc, hname⟩ := List.forall_mem_cons.mp hplain
        simp only [isNormalizedLoop, hc]
        exact ih hname (some c) (by simp [endsInPunctuation, hc])
  exact hloop none rfl

theorem nameChar_of_isDigit {c : Char} (hc : c.isDigit = true) : nameChar c = .plain := by
  simp only [Char.isDigit, ge_iff_le, Bool.and_eq_true, decide_eq_true_eq] at hc
  have hupper : ¬ ('A' ≤ c ∧ c ≤ 'Z') := by
    rintro ⟨hle, -⟩
    exact absurd (UInt32.le_trans hle hc.2) (by decide)
  rw [nameChar, if_neg hupper, if_pos (.inr hc)]

theorem isNormalized_toDigits (n : ℕ) :
    isNormalized (Nat.toDigits 10 n) = some true := by
  apply isNormalized_of_plain
  intro c hc
  exact nameChar_of_isDigit (Nat.isDigit_of_mem_toDigits (by decide) (by decide) hc)

/-- The fields of an encoding, with dashes between them. -/
def encodedFields (kind : String) (package : PackageName) (rest : Text) : Text :=
  kind.toList ++ '-' :: (Nat.toDigits 10 package.text.length ++ '-' ::
    (package.text ++ rest))

theorem encodePrefix_append (kind : String) (package : PackageName) (rest : Text) :
    encodePrefix kind package ++ rest = encodedFields kind package rest := by
  simp [encodePrefix, encodedFields, Nat.repr]

/-- What an item is encoded as. -/
def encodedText (item : ConflictItem) : Text :=
  match item.kind with
  | .extra extra => encodedFields "extra" item.package ('-' :: extra.text)
  | .group group => encodedFields "group" item.package ('-' :: group.text)
  | .project => encodedFields "project" item.package []

theorem isNormalized_encodedFields {kind : String} {package : PackageName} {rest : Text}
    (hkind : isNormalized kind.toList = some true) (hne : kind.toList ≠ [])
    (hrest : isNormalized (package.text ++ rest) = some true)
    (hne' : package.text ++ rest ≠ []) :
    isNormalized (encodedFields kind package rest) = some true := by
  have hdigits := isNormalized_dash (isNormalized_toDigits package.text.length)
    Nat.toDigits_ne_nil hrest hne'
  exact isNormalized_dash hkind hne hdigits (by simp)

theorem isNormalized_encodedText {item : ConflictItem} (hitem : item.Encodable) :
    isNormalized (encodedText item) = some true := by
  have hnamed : ∀ name : Name, name.text ≠ [] →
      isNormalized (item.package.text ++ '-' :: name.text) = some true := fun name hname =>
    isNormalized_dash item.package.normalized hitem.package name.normalized hname
  unfold encodedText
  cases hkind : item.kind with
  | extra extra =>
      exact isNormalized_encodedFields (by decide) (by decide)
        (hnamed extra (hitem.extra extra hkind)) (by simp)
  | group group =>
      exact isNormalized_encodedFields (by decide) (by decide)
        (hnamed group (hitem.group group hkind)) (by simp)
  | project =>
      have hpackage := item.package.normalized
      rw [← List.append_nil item.package.text] at hpackage
      exact isNormalized_encodedFields (by decide) (by decide) hpackage
        (by simpa using hitem.package)

theorem encodeConflictItem_eq_validateAndNormalize (item : ConflictItem) :
    encodeConflictItem item = validateAndNormalize (encodedText item) := by
  unfold encodeConflictItem encodedText
  cases item.kind with
  | extra extra =>
      simp only [encodePackageExtra]
      rw [List.append_assoc, encodePrefix_append]
      rfl
  | group group =>
      simp only [encodePackageGroup]
      rw [List.append_assoc, encodePrefix_append]
      rfl
  | project =>
      simp only [encodeProject]
      rw [← encodePrefix_append, List.append_nil]

/-- The encoding is in normal form as it is written, so normalizing it as an extra
name keeps every character. -/
theorem encodeConflictItem_eq {item : ConflictItem} (hitem : item.Encodable) :
    encodeConflictItem item = some (encodedText item) := by
  rw [encodeConflictItem_eq_validateAndNormalize, validateAndNormalize,
    isNormalized_encodedText hitem]

/-! ## Reading them back -/

namespace ParsedRawExtra

theorem splitAtChecked_append (package rest : Text) :
    splitAtChecked package.length (package ++ rest) = some (package, rest) := by
  rw [splitAtChecked, if_pos (by simp), List.splitAt_eq]
  simp

/-- The digits end at the first dash after them, and the length they give ends the
name of the package. -/
theorem parseText_encodedFields {kind : String} {package : PackageName}
    (hkind : '-' ∉ kind.toList) (hlength : package.text.length < 2 ^ 64) (rest : Text) :
    parseText (encodedFields kind package rest) =
      ofFields kind.toList package.text rest := by
  have hdigits : '-' ∉ Nat.toDigits 10 package.text.length := by
    intro hmem
    exact absurd (Nat.isDigit_of_mem_toDigits (by decide) (by decide) hmem) (by decide)
  rw [parseText, encodedFields, splitOnce_append hkind]
  simp only [splitOnce_append hdigits, parseUnsigned_toDigits hlength,
    splitAtChecked_append]

/-- The encoding, taken apart. -/
def ofItem (item : ConflictItem) : ParsedRawExtra :=
  match item.kind with
  | .extra name => .extra item.package.text name.text
  | .group name => .group item.package.text name.text
  | .project => .project item.package.text

theorem parseText_encodedText {item : ConflictItem} (hitem : item.Encodable) :
    parseText (encodedText item) = .ok (ofItem item) := by
  unfold encodedText ofItem
  cases item.kind with
  | extra name =>
      simp only
      rw [parseText_encodedFields (by decide) hitem.length]
      rfl
  | group name =>
      simp only
      rw [parseText_encodedFields (by decide) hitem.length]
      rfl
  | project =>
      simp only
      rw [parseText_encodedFields (by decide) hitem.length]
      rfl

theorem readName_text (kind : String) (name : Name) : readName kind name.text = .ok name := by
  rw [readName, name.fromStr_text]

theorem toConflictItem_ofItem (item : ConflictItem) :
    (ofItem item).toConflictItem = .ok item := by
  obtain ⟨package, kind⟩ := item
  have hpackage : (ofItem ⟨package, kind⟩).package = package.text := by
    cases kind <;> rfl
  rw [toConflictItem, hpackage, readName_text]
  cases kind with
  | extra name => simp [ofItem, readName_text, Except.map, ConflictItem.ofExtra]
  | group name => simp [ofItem, readName_text, Except.map, ConflictItem.ofGroup]
  | project => rfl

/-- What an item is encoded as is parsed as that item again; so items with one
encoding are one item, whatever their packages and kinds. -/
theorem toConflictItem_parse_encodeConflictItem {item : ConflictItem}
    (hitem : item.Encodable) :
    (∃ rawExtra : ExtraName, encodeConflictItem item = some rawExtra.text ∧
      ∃ parsed, parse rawExtra = .ok parsed ∧ parsed.toConflictItem = .ok item) ∧
    ∀ other : ConflictItem, other.Encodable →
      encodeConflictItem other = encodeConflictItem item → other = item := by
  refine ⟨⟨⟨encodedText item, isNormalized_encodedText hitem⟩, encodeConflictItem_eq hitem,
    ofItem item, ?_, toConflictItem_ofItem item⟩, fun other hother heq => ?_⟩
  · rw [parse, parseText_encodedText hitem]
    rfl
  · rw [encodeConflictItem_eq hother, encodeConflictItem_eq hitem, Option.some.injEq] at heq
    have hparsed := parseText_encodedText hother
    rw [heq, parseText_encodedText hitem, Except.ok.injEq] at hparsed
    have hread := toConflictItem_ofItem other
    rw [← hparsed, toConflictItem_ofItem, Except.ok.injEq] at hread
    exact hread.symm

/-- A package and an extra with dashes and digits in them. -/
theorem toConflictItem_parse_encodeConflictItem_dashes :
    ∃ item other : ConflictItem, item.package.text = "a-3".toList ∧
      encodeConflictItem item = some "extra-3-a-3-b".toList ∧
      encodeConflictItem other = some "extra-1-a-3-b".toList ∧ other ≠ item ∧
      ∃ rawExtra : ExtraName, encodeConflictItem item = some rawExtra.text ∧
        ∃ parsed, parse rawExtra = .ok parsed ∧ parsed.toConflictItem = .ok item := by
  let item : ConflictItem := .ofExtra ⟨"a-3".toList, rfl⟩ ⟨"b".toList, rfl⟩
  let other : ConflictItem := .ofExtra ⟨"a".toList, rfl⟩ ⟨"3-b".toList, rfl⟩
  have hitem : item.Encodable := by
    refine ⟨by decide, ?_, ?_, by decide⟩
    · rintro _ ⟨⟩
      decide
    · rintro _ ⟨⟩
  exact ⟨item, other, rfl, by decide +kernel, by decide +kernel, by decide,
    (toConflictItem_parse_encodeConflictItem hitem).1⟩

end ParsedRawExtra

end Uv.Resolver
