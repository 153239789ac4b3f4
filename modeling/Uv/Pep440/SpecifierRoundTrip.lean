import Uv.Pep440.StarPattern

/-!
# Writing and reading specifier sets

Specifiers are read between commas and sorted by version; they are written with a
comma and a space between them.  What is read once is written so that reading it
again gives the same operators with the same versions in the same order.
-/

namespace Uv.Pep440

open Uv.Core Uv.Core.Order Uv.DistributionFilename Uv.Pep508

/-- `as_str`, which does not print the star. -/
def Operator.asStr : Operator → String
  | .equal => "=="
  | .equalStar => "=="
  | .exactEqual => "==="
  | .notEqual => "!="
  | .notEqualStar => "!="
  | .tildeEqual => "~="
  | .lessThan => "<"
  | .lessThanEqual => "<="
  | .greaterThan => ">"
  | .greaterThanEqual => ">="

/-- `Display for VersionSpecifier`. -/
def VersionSpecifier.display (specifier : VersionSpecifier) : List Char :=
  if specifier.operator = .equalStar ∨ specifier.operator = .notEqualStar then
    specifier.operator.asStr.toList ++ versionText specifier.version.val ++ ".*".toList
  else specifier.operator.asStr.toList ++ versionText specifier.version.val

/-- An error, with the text it is in and the bytes of that text it is about. -/
structure VersionSpecifiersParseError where
  err : ParseErrorKind
  line : List Char
  start : ℕ
  stop : ℕ
  deriving DecidableEq

namespace VersionSpecifiers

/-- The loop of `parse_version_specifiers` over the parts between commas. -/
def parseLoop (line : List Char) :
    ℕ → List (List Char) → Except VersionSpecifiersParseError (List VersionSpecifier)
  | _, [] => .ok []
  | start, versionRangeSpec :: rest =>
      match VersionSpecifier.fromStr versionRangeSpec with
      | .error err =>
          .error { err, line, start, stop := start + byteLength versionRangeSpec }
      | .ok versionRange =>
          (parseLoop line (start + byteLength versionRangeSpec + 1) rest).map
            (versionRange :: ·)

/-- `parse_version_specifiers`. -/
def parse (spec : List Char) :
    Except VersionSpecifiersParseError (List VersionSpecifier) :=
  if spec.isEmpty then .ok [] else parseLoop spec 0 (spec.splitOn ',')

/-- The specifiers, sorted by version; those of equal versions keep their order. -/
def fromUnsorted (specifiers : List VersionSpecifier) : List VersionSpecifier :=
  specifiers.mergeSort fun a b => (a.version.val.cmp b.version.val).isLE

/-- `FromStr for VersionSpecifiers`. -/
def fromStr (s : List Char) :
    Except VersionSpecifiersParseError (List VersionSpecifier) :=
  (parse s).map fromUnsorted

/-- `Display for VersionSpecifiers`. -/
def display (specifiers : List VersionSpecifier) : List Char :=
  ", ".toList.intercalate (specifiers.map VersionSpecifier.display)

end VersionSpecifiers

/-! ## One specifier -/

/-- The bytes of a displayed version with or without a star. -/
def IsPatternByte (byte : Byte) : Prop := IsVersionByte byte ∨ byte.val = 42

instance : DecidablePred IsPatternByte := fun byte =>
  inferInstanceAs (Decidable (IsVersionByte byte ∨ byte.val = 42))

theorem isPatternByte_facts {byte : Byte} (hbyte : IsPatternByte byte) :
    (String.utf8EncodeChar (charOfByte byte)).map UInt8.toFin = [byte] ∧
      VersionSpecifier.isWhitespace (charOfByte byte) = false ∧ charOfByte byte ≠ ',' := by
  have hall : ∀ byte : Byte, IsPatternByte byte →
      (String.utf8EncodeChar (charOfByte byte)).map UInt8.toFin = [byte] ∧
        VersionSpecifier.isWhitespace (charOfByte byte) = false ∧
          charOfByte byte ≠ ',' := by
    decide +kernel
  exact hall byte hbyte

theorem utf8_map_charOfByte {bytes : List Byte} (hbytes : ∀ byte ∈ bytes, IsPatternByte byte) :
    VersionSpecifier.utf8 (bytes.map charOfByte) = bytes := by
  unfold VersionSpecifier.utf8
  induction bytes with
  | nil => rfl
  | cons byte bytes ih =>
      obtain ⟨hbyte, hbytes⟩ := List.forall_mem_cons.mp hbytes
      rw [List.map_cons, List.flatMap_cons, List.map_append, ih hbytes,
        (isPatternByte_facts hbyte).1]
      rfl

/-- A character of an operator. -/
def isOperatorChar (c : Char) : Bool := "=!~<>".toList.contains c

/-- What an operator is written as is read as that operator, but for the star. -/
theorem Operator.fromStr_asStr (operator : Operator) :
    ∃ base, Operator.fromStr operator.asStr.toList = .ok base ∧
      base.isStar = false ∧
      (operator.isStar = true → base.toStar = some operator) ∧
      (operator.isStar = false → base = operator) := by
  cases operator
  case equalStar => exact ⟨.equal, by decide, rfl, fun _ => rfl, by decide⟩
  case notEqualStar => exact ⟨.notEqual, by decide, rfl, fun _ => rfl, by decide⟩
  all_goals exact ⟨_, by decide, rfl, by decide, fun _ => rfl⟩

namespace VersionSpecifier

/-- Reading an operator, a version pattern that starts with a digit, and white
space before them. -/
theorem fromStr_append {space : List Char} {text : String} {operator : Operator}
    {bytes : List Byte} {vpat : VersionPattern}
    (hspace : ∀ c ∈ space, isWhitespace c = true)
    (htext : text.toList.all isOperatorChar = true)
    (hoperator : Operator.fromStr text.toList = .ok operator)
    (hbytes : ∀ byte ∈ bytes, IsPatternByte byte)
    (hhead : ∃ byte rest, bytes = byte :: rest ∧ Byte.isAsciiDigit byte = true)
    (hpattern : VersionPattern.fromStr bytes = .ok vpat) :
    fromStr (space ++ (text.toList ++ bytes.map charOfByte)) =
      (fromPattern operator ⟨vpat.version, Parser.valid_of_parsePattern hpattern⟩
        vpat.wildcard).mapError .invalidSpecifier := by
  have hoperatorFacts : ∀ c, isOperatorChar c = true → isWhitespace c = false := by
    intro c hc
    simp only [isOperatorChar, String.reduceToList, List.contains_eq_mem, List.mem_cons,
      List.not_mem_nil, or_false, decide_eq_true_eq] at hc
    rcases hc with rfl | rfl | rfl | rfl | rfl <;> decide
  have hne : text.toList ≠ [] := by
    intro hnil
    rw [hnil] at hoperator
    cases hoperator
  obtain ⟨version, hversion⟩ : ∃ version, version = bytes.map charOfByte := ⟨_, rfl⟩
  have hplain : ∀ c ∈ version, isWhitespace c = false := by
    intro c hc
    rw [hversion] at hc
    obtain ⟨byte, hbyte, rfl⟩ := List.mem_map.mp hc
    exact (isPatternByte_facts (hbytes byte hbyte)).2.1
  obtain ⟨first, others, hcons, hfirst⟩ : ∃ first others, version = first :: others ∧
      isOperatorChar first = false := by
    have hall : ∀ b : Byte, Byte.isAsciiDigit b = true →
        isOperatorChar (charOfByte b) = false := by
      decide +kernel
    obtain ⟨byte, rest, rfl, hdigit⟩ := hhead
    exact ⟨_, _, hversion, hall byte hdigit⟩
  have htrim : (space ++ (text.toList ++ version)).dropWhile isWhitespace =
      text.toList ++ version := by
    rw [List.dropWhile_append_of_pos hspace]
    obtain ⟨c, rest, hcons⟩ := List.exists_cons_of_ne_nil hne
    rw [hcons, List.all_cons, Bool.and_eq_true] at htext
    rw [hcons, List.cons_append, List.dropWhile_cons_of_neg]
    simp [hoperatorFacts c htext.1]
  have hspan : (text.toList ++ version).span isOperatorChar = (text.toList, version) := by
    have hall := List.all_eq_true.mp htext
    rw [List.span_eq_takeWhile_dropWhile, List.takeWhile_append_of_pos hall,
      List.dropWhile_append_of_pos hall, hcons]
    simp [hfirst]
  have htrim' : version.dropWhile isWhitespace = version := by
    rw [hcons, List.dropWhile_cons_of_neg]
    simp [hplain first (by rw [hcons]; simp)]
  have hspan' : version.span (!isWhitespace ·) = (version, []) := by
    have hall : ∀ c ∈ version, (!isWhitespace c) = true := by
      intro c hc
      rw [hplain c hc]
      rfl
    rw [List.span_eq_takeWhile_dropWhile, List.takeWhile_eq_self_iff.mpr hall,
      List.dropWhile_eq_nil_iff.mpr hall]
  have hempty : version.isEmpty = false := by
    rw [hcons]
    rfl
  have hchars : (fun c => "=!~<>".toList.contains c) = isOperatorChar := rfl
  have hutf8 : utf8 version = bytes := by rw [hversion, utf8_map_charOfByte hbytes]
  rw [← hversion]
  unfold fromStr
  simp only [htrim, hchars, hspan, htrim', hspan', List.dropWhile_nil,
    List.isEmpty_eq_false_iff.mpr hne, hoperator, hempty, List.isEmpty_nil,
    Bool.false_eq_true, if_false, if_true]
  split
  · rename_i hread
    simp only [htrim, hchars, hspan, htrim', hspan', hutf8, hpattern] at hread
    cases hread
  · rename_i read hread
    have hsame : vpat = read := by
      simp only [htrim, hchars, hspan, htrim', hspan', hutf8, hpattern] at hread
      exact Except.ok.inj hread
    subst hsame
    split
    · rename_i hbuild
      rw [hbuild]
      rfl
    · rename_i hbuild
      rw [hbuild]
      rfl

/-- The operator is the same and every component of the version. -/
def SameAs (specifier other : VersionSpecifier) : Prop :=
  specifier.operator = other.operator ∧
    specifier.version.val.components = other.version.val.components

/-- The version a specifier is displayed with, and its star. -/
def patternBytes (specifier : VersionSpecifier) : List Byte :=
  specifier.version.val.display ++ if specifier.operator.isStar then ascii ".*" else []

theorem display_eq (specifier : VersionSpecifier) :
    specifier.display =
      specifier.operator.asStr.toList ++ specifier.patternBytes.map charOfByte := by
  have hstar : (ascii ".*").map charOfByte = ".*".toList := by decide
  unfold display patternBytes versionText
  cases hoperator : specifier.operator <;>
    simp [Operator.isStar, hstar]

theorem exists_pattern_of_version {s : List Byte} {version : Version}
    (hparse : Version.fromStr s = .ok version) :
    ∃ vpat, VersionPattern.fromStr s = .ok vpat ∧ vpat.wildcard = false ∧
      vpat.version = version := by
  unfold Version.fromStr Parser.parse at hparse
  split at hparse
  · rename_i vpat hpattern
    split at hparse
    · cases hparse
    · rename_i hwildcard
      exact ⟨vpat, hpattern, eq_false_of_ne_true hwildcard, Except.ok.inj hparse⟩
  · cases hparse
  · cases hparse

/-- What an accepted specifier holds is read again from its version and star. -/
theorem exists_pattern {spec : List Char} {specifier : VersionSpecifier}
    (hparse : fromStr spec = .ok specifier) :
    (∀ byte ∈ specifier.patternBytes, IsPatternByte byte) ∧
      (∃ byte rest, specifier.patternBytes = byte :: rest ∧
        Byte.isAsciiDigit byte = true) ∧
      ∃ vpat, VersionPattern.fromStr specifier.patternBytes = .ok vpat ∧
        vpat.wildcard = specifier.operator.isStar ∧
        vpat.version.components = specifier.version.val.components := by
  unfold patternBytes
  cases hstar : specifier.operator.isStar with
  | false =>
      obtain ⟨⟨s, hversion⟩, -⟩ := exists_of_fromStr hparse hstar
      obtain ⟨hstored, hrelease⟩ := Version.stored_of_fromStr hversion
      obtain ⟨parts, hlocal, -⟩ := hstored.localVersion
      rw [← Version.localVersion_eq] at hlocal
      rw [← Version.release_eq] at hrelease
      obtain ⟨version, hagain, hcomponents⟩ := Version.components_fromStr_display hversion
      obtain ⟨vpat, hpattern, hwildcard, hsame⟩ := exists_pattern_of_version hagain
      rw [if_neg Bool.false_ne_true, List.append_nil]
      refine ⟨fun byte hbyte => .inl (isVersionByte_display hstored byte hbyte),
        specifier.version.val.display_head hlocal hrelease, vpat, hpattern, hwildcard, ?_⟩
      rw [hsame, hcomponents]
  | true =>
      obtain ⟨s, vpat, hpattern, hwildcard, hversion⟩ := exists_wildcard_of_fromStr hparse hstar
      obtain ⟨epoch, release, hne, hfull⟩ := Parser.makeFull_of_wildcard hpattern hwildcard
      obtain ⟨hstored, -⟩ := Parser.parsePattern_stored hpattern
      rw [← hversion] at hfull hstored
      have hlocal : specifier.version.val.localVersion = .segments [] := by
        rw [Version.localVersion_eq, hfull]
        rfl
      have hrelease : specifier.version.val.release ≠ [] := by
        rw [Version.release_eq, hfull]
        exact hne
      have hdisplay : specifier.version.val.display ++ ascii ".*" =
          displayEpoch epoch ++ (displayRelease release ++ ascii ".*") := by
        rw [Version.display_eq _ hlocal, Version.epoch_eq, Version.release_eq,
          Version.pre_eq, Version.post_eq, Version.dev_eq, hfull, List.append_assoc,
          List.append_assoc]
        rfl
      have hbounds : epoch ≤ u64Max ∧ ∀ n ∈ release, n ≤ u64Max := by
        have hepoch := hstored.epoch
        have hnumbers := hstored.release
        rw [hfull] at hepoch hnumbers
        exact ⟨hepoch, hnumbers⟩
      obtain ⟨vpat', hpattern', hwildcard', hfull'⟩ :=
        VersionPattern.fromStr_star hbounds.1 hne hbounds.2
      rw [if_pos rfl]
      refine ⟨fun byte hbyte => ?_, ?_, vpat', ?_, hwildcard', ?_⟩
      · rcases List.mem_append.mp hbyte with hbyte | hbyte
        · exact .inl (isVersionByte_display hstored byte hbyte)
        · have hall : ∀ b ∈ ascii ".*", IsPatternByte b := by decide +kernel
          exact hall byte hbyte
      · obtain ⟨byte, rest, hhead, hdigit⟩ :=
          specifier.version.val.display_head hlocal hrelease
        exact ⟨byte, rest ++ ascii ".*", by rw [hhead, List.cons_append], hdigit⟩
      · rw [hdisplay, hpattern']
      · rw [Version.components_eq, Version.components_eq, hfull', hfull]

theorem isEmpty_localVersion {spec : List Char} {specifier : VersionSpecifier}
    (hparse : fromStr spec = .ok specifier)
    (hcompatible : specifier.operator.isLocalCompatible = false) :
    specifier.version.val.localVersion.isEmpty = true := by
  obtain ⟨operator, s, vpat, hpattern, -, hbuild⟩ := exists_pattern_of_fromStr hparse
  have hversion : ∀ {operator : Operator} {version : ValidVersion},
      fromVersion operator version = .ok specifier →
        specifier.version.val.localVersion.isEmpty = true := by
    intro operator version hbuild
    obtain ⟨hoperator, hversion, hlocal⟩ := fromVersion_eq_ok hbuild
    rw [hversion]
    exact hlocal (hoperator ▸ hcompatible)
  unfold fromPattern at hbuild
  split at hbuild
  · split at hbuild
    · exact hversion hbuild
    · cases hbuild
  · exact hversion hbuild

/-- What an accepted specifier is displayed as is read as that specifier again. -/
theorem exists_sameAs {spec : List Char} {specifier : VersionSpecifier}
    (hparse : fromStr spec = .ok specifier) :
    ∃ other, other.SameAs specifier ∧
      ∀ space : List Char, (∀ c ∈ space, isWhitespace c = true) →
        fromStr (space ++ specifier.display) = .ok other := by
  obtain ⟨hbytes, hhead, vpat, hpattern, hwildcard, hcomponents⟩ := exists_pattern hparse
  obtain ⟨base, hbase, -, hstar, hplain⟩ := specifier.operator.fromStr_asStr
  have hchars : specifier.operator.asStr.toList.all isOperatorChar = true := by
    cases specifier.operator <;> decide
  have hlocalVersion : vpat.version.localVersion = specifier.version.val.localVersion :=
    congrArg VersionFull.localVersion hcomponents
  have hrelease : vpat.version.release = specifier.version.val.release :=
    congrArg VersionFull.release hcomponents
  let other : VersionSpecifier := {
    operator := specifier.operator
    version := ⟨vpat.version, Parser.valid_of_parsePattern hpattern⟩
    tildeEqual_release := fun htilde => by
      change 2 ≤ vpat.version.release.length
      rw [hrelease]
      exact specifier.tildeEqual_release htilde }
  have hversion : fromVersion specifier.operator other.version = .ok other := by
    have hlocal : (vpat.version.isLocal && !specifier.operator.isLocalCompatible) = false := by
      cases hcompatible : specifier.operator.isLocalCompatible with
      | true => rw [Bool.not_true, Bool.and_false]
      | false =>
          rw [Version.isLocal, hlocalVersion, isEmpty_localVersion hparse hcompatible]
          rfl
    have hlength : ¬ (specifier.operator = .tildeEqual ∧
        vpat.version.release.length < 2) := fun hboth =>
      not_lt.mpr (other.tildeEqual_release hboth.1) hboth.2
    rw [fromVersion, if_neg (ne_true_of_eq_false hlocal), dif_neg hlength]
  have hbuild : fromPattern base other.version vpat.wildcard = .ok other := by
    rw [hwildcard, fromPattern]
    cases hisStar : specifier.operator.isStar with
    | true => simp only [hstar hisStar, if_true, hversion]
    | false => rw [if_neg Bool.false_ne_true, hplain hisStar, hversion]
  refine ⟨other, ⟨rfl, hcomponents⟩, fun space hspace => ?_⟩
  rw [display_eq, fromStr_append hspace hchars hbase hbytes hhead hpattern]
  exact congrArg (Except.mapError _) hbuild

/-- There is no comma in a displayed specifier, which is not empty. -/
theorem comma_notMem_display {spec : List Char} {specifier : VersionSpecifier}
    (hparse : fromStr spec = .ok specifier) :
    ',' ∉ specifier.display ∧ specifier.display ≠ [] := by
  obtain ⟨hbytes, hhead, -⟩ := exists_pattern hparse
  have hoperator : ',' ∉ specifier.operator.asStr.toList ∧
      specifier.operator.asStr.toList ≠ [] := by
    cases specifier.operator <;> decide
  rw [display_eq, List.mem_append, not_or]
  refine ⟨⟨hoperator.1, fun hmem => ?_⟩, by simp [hoperator.2]⟩
  obtain ⟨byte, hbyte, heq⟩ := List.mem_map.mp hmem
  exact (isPatternByte_facts (hbytes byte hbyte)).2.2 heq

end VersionSpecifier

/-! ## Sets of specifiers -/

namespace VersionSpecifiers

open VersionSpecifier

/-- The parts of displayed specifiers between commas. -/
theorem splitOn_display {specifiers : List VersionSpecifier} {first : VersionSpecifier}
    (hfirst : ',' ∉ first.display)
    (hcomma : ∀ specifier ∈ specifiers, ',' ∉ specifier.display) :
    (display (first :: specifiers)).splitOn ',' =
      first.display :: specifiers.map fun specifier => ' ' :: specifier.display := by
  unfold display
  induction specifiers generalizing first with
  | nil =>
      rw [List.map_singleton, List.intercalate_singleton, List.splitOn_eq_singleton hfirst]
      rfl
  | cons specifier specifiers ih =>
      obtain ⟨hspecifier, hcomma⟩ := List.forall_mem_cons.mp hcomma
      have hspace : ¬ (' ' == ',') = true := by decide
      rw [List.map_cons, List.map_cons, List.intercalate_cons_cons, List.append_assoc,
        ← List.map_cons]
      change (first.display ++ ',' :: ' ' :: ", ".toList.intercalate
        ((specifier :: specifiers).map VersionSpecifier.display)).splitOn ',' = _
      rw [List.splitOn_append_cons_self_of_not_mem hfirst,
        List.splitOn_cons_eq_if_modifyHead, if_neg hspace, ih hspecifier hcomma]
      rfl

theorem parseLoop_eq_ok {line : List Char} {start : ℕ} {specs : List (List Char)}
    {specifiers : List VersionSpecifier} :
    parseLoop line start specs = .ok specifiers ↔
      List.Forall₂ (fun spec specifier => VersionSpecifier.fromStr spec = .ok specifier)
        specs specifiers := by
  induction specs generalizing start specifiers with
  | nil => simp [parseLoop, eq_comm]
  | cons spec specs ih =>
      rw [parseLoop, List.forall₂_cons_left_iff]
      cases hspec : VersionSpecifier.fromStr spec with
      | error err => simp
      | ok specifier =>
          simp only [Except.ok.injEq]
          constructor
          · intro hloop
            cases hrest : parseLoop line (start + byteLength spec + 1) specs with
            | error err =>
                rw [hrest] at hloop
                cases hloop
            | ok rest =>
                rw [hrest] at hloop
                cases hloop
                exact ⟨specifier, rest, rfl, ih.mp hrest, rfl⟩
          · rintro ⟨_, rest, rfl, hrest, rfl⟩
            rw [ih.mpr hrest]
            rfl

/-- Every specifier of an accepted set is read from some text. -/
theorem exists_fromStr_of_parse {s : List Char} {specifiers : List VersionSpecifier}
    (hparse : parse s = .ok specifiers) :
    ∀ specifier ∈ specifiers, ∃ spec, VersionSpecifier.fromStr spec = .ok specifier := by
  unfold parse at hparse
  split at hparse
  · cases hparse
    simp
  · intro specifier hmem
    obtain ⟨spec, -, hspec⟩ := exists_of_forall₂ (parseLoop_eq_ok.mp hparse).flip hmem
    exact ⟨spec, hspec⟩

theorem isLE_cmp_iff (specifier other : VersionSpecifier) :
    (specifier.version.val.cmp other.version.val).isLE = true ↔
      specifier.version.val.key ≤ other.version.val.key :=
  Version.le_iff specifier.version.valid other.version.valid

theorem pairwise_fromUnsorted (specifiers : List VersionSpecifier) :
    ((fromUnsorted specifiers).map (·.version.val.key)).Pairwise (· ≤ ·) := by
  rw [List.pairwise_map]
  refine (List.pairwise_mergeSort ?_ ?_ specifiers).imp fun hle => (isLE_cmp_iff _ _).mp hle
  · intro a b c hab hbc
    rw [isLE_cmp_iff] at hab hbc ⊢
    exact hab.trans hbc
  · intro a b
    rw [Bool.or_eq_true, isLE_cmp_iff, isLE_cmp_iff]
    exact le_total ..

/-- Sorting leaves sorted specifiers as they are. -/
theorem fromUnsorted_eq_self {specifiers : List VersionSpecifier}
    (hsorted : (specifiers.map (·.version.val.key)).Pairwise (· ≤ ·)) :
    fromUnsorted specifiers = specifiers := by
  rw [List.pairwise_map] at hsorted
  exact List.mergeSort_of_pairwise (hsorted.imp fun hle => (isLE_cmp_iff _ _).mpr hle)

/-- The specifiers that displayed ones are read as. -/
theorem exists_others {specifiers : List VersionSpecifier}
    (hread : ∀ specifier ∈ specifiers, ∃ spec,
      VersionSpecifier.fromStr spec = .ok specifier) :
    ∃ others, List.Forall₂ (fun specifier other => other.SameAs specifier ∧
      ∀ space : List Char, (∀ c ∈ space, isWhitespace c = true) →
        VersionSpecifier.fromStr (space ++ specifier.display) = .ok other)
      specifiers others := by
  induction specifiers with
  | nil => exact ⟨[], .nil⟩
  | cons specifier specifiers ih =>
      obtain ⟨⟨spec, hspec⟩, hread⟩ := List.forall_mem_cons.mp hread
      obtain ⟨other, hother⟩ := VersionSpecifier.exists_sameAs hspec
      obtain ⟨others, hothers⟩ := ih hread
      exact ⟨other :: others, .cons hother hothers⟩

/-- What is between the commas of a displayed set is read. -/
theorem parse_display {specifiers others : List VersionSpecifier}
    (hread : ∀ specifier ∈ specifiers, ∃ spec,
      VersionSpecifier.fromStr spec = .ok specifier)
    (hothers : List.Forall₂ (fun specifier other => other.SameAs specifier ∧
      ∀ space : List Char, (∀ c ∈ space, isWhitespace c = true) →
        VersionSpecifier.fromStr (space ++ specifier.display) = .ok other)
      specifiers others) :
    parse (display specifiers) = .ok others := by
  have hspace : ∀ c ∈ [' '], isWhitespace c = true := by
    intro c hc
    obtain rfl := List.mem_singleton.mp hc
    decide
  cases hothers with
  | nil => rfl
  | @cons first other specifiers others hfirst hrest =>
      have hcomma : ∀ specifier ∈ first :: specifiers,
          ',' ∉ specifier.display ∧ specifier.display ≠ [] := by
        intro specifier hmem
        obtain ⟨spec, hspec⟩ := hread specifier hmem
        exact comma_notMem_display hspec
      obtain ⟨⟨hcommaFirst, hne⟩, hcomma⟩ := List.forall_mem_cons.mp hcomma
      have hdisplay : (display (first :: specifiers)).isEmpty = false := by
        rw [List.isEmpty_eq_false_iff, display]
        cases specifiers <;> simp [hne]
      rw [parse, if_neg (ne_true_of_eq_false hdisplay),
        splitOn_display hcommaFirst fun specifier hmem => (hcomma specifier hmem).1,
        parseLoop_eq_ok]
      refine .cons (by simpa using hfirst.2 [] (by simp)) ?_
      rw [List.forall₂_map_left_iff]
      exact hrest.imp fun specifier other hother => hother.2 [' '] hspace

/-- Displaying an accepted set and reading it again gives the same operators with
the same versions, in the same order and with the same release lengths. -/
theorem exists_fromStr_display {s : List Char} {specifiers : List VersionSpecifier}
    (hparse : fromStr s = .ok specifiers) :
    ∃ others, fromStr (display specifiers) = .ok others ∧
      List.Forall₂ (fun specifier other => other.operator = specifier.operator ∧
        other.version.val.components = specifier.version.val.components ∧
        other.version.val.release.length = specifier.version.val.release.length)
        specifiers others := by
  obtain ⟨read, hread, rfl⟩ : ∃ read, parse s = .ok read ∧ fromUnsorted read = specifiers := by
    unfold fromStr at hparse
    cases hread : parse s with
    | error err =>
        rw [hread] at hparse
        cases hparse
    | ok read =>
        rw [hread] at hparse
        exact ⟨read, rfl, Except.ok.inj hparse⟩
  have hspecs : ∀ specifier ∈ fromUnsorted read, ∃ spec,
      VersionSpecifier.fromStr spec = .ok specifier := fun specifier hmem =>
    exists_fromStr_of_parse hread specifier (List.mem_mergeSort.mp hmem)
  obtain ⟨others, hothers⟩ := exists_others hspecs
  -- The versions read are the versions displayed, so they are sorted already.
  have hkeys : others.map (·.version.val.key) =
      (fromUnsorted read).map (·.version.val.key) := by
    rw [eq_comm, ← List.forall₂_eq_eq_eq, List.forall₂_map_left_iff,
      List.forall₂_map_right_iff]
    refine hothers.imp fun specifier other hother => ?_
    have hfull := hother.1.2
    rw [Version.components_eq, Version.components_eq] at hfull
    exact congrArg VersionFull.key hfull.symm
  have hsorted : fromUnsorted others = others := by
    apply fromUnsorted_eq_self
    rw [hkeys]
    exact pairwise_fromUnsorted read
  refine ⟨others, ?_, hothers.imp fun specifier other hother => ⟨hother.1.1, hother.1.2, ?_⟩⟩
  · rw [fromStr, parse_display hspecs hothers]
    exact congrArg Except.ok hsorted
  · exact congrArg (fun full => full.release.length) hother.1.2

/-- A set with a star, a local label and a restriction of `~=`, not yet sorted. -/
theorem exists_fromStr_display_kinds : ∃ read others,
    parse "~=1.4.0, ==1.0+Ab ,!=1.00.*,>=1".toList = .ok read ∧
      read.map VersionSpecifier.display =
        ["~=1.4.0".toList, "==1.0+ab".toList, "!=1.0.*".toList, ">=1".toList] ∧
      fromStr (display (fromUnsorted read)) = .ok others ∧
      List.Forall₂ (fun specifier other => other.operator = specifier.operator ∧
        other.version.val.components = specifier.version.val.components ∧
        other.version.val.release.length = specifier.version.val.release.length)
        (fromUnsorted read) others := by
  have hdisplay : (parse "~=1.4.0, ==1.0+Ab ,!=1.00.*,>=1".toList).toOption.map
      (·.map VersionSpecifier.display) =
        some ["~=1.4.0".toList, "==1.0+ab".toList, "!=1.0.*".toList, ">=1".toList] := by
    decide +kernel
  cases hread : parse "~=1.4.0, ==1.0+Ab ,!=1.00.*,>=1".toList with
  | error err =>
      rw [hread] at hdisplay
      cases hdisplay
  | ok read =>
      rw [hread] at hdisplay
      have hparse : fromStr "~=1.4.0, ==1.0+Ab ,!=1.00.*,>=1".toList =
          .ok (fromUnsorted read) := by
        rw [fromStr, hread]
        rfl
      obtain ⟨others, hothers, hsame⟩ := exists_fromStr_display hparse
      exact ⟨read, others, rfl, Option.some.inj hdisplay, hothers, hsame⟩

end VersionSpecifiers

end Uv.Pep440
