import Uv.DistributionFilename.WheelTag
import Uv.PlatformTags.TagText

/-!
# Wheel file names

A wheel file name has five or six parts with dashes between them: the name, the version, a build
tag in the second case, and the tags.

A slice is taken at byte offsets; `none` stands for the panic of a slice that is not between two
characters.
-/

namespace Uv.DistributionFilename

open Uv.Core Uv.Pep440 Uv.Pep508 Uv.PlatformTags
open Uv.DistributionTypes (BuildTag)

/-- A successful run, with what is asked of the result. -/
theorem exists_ok {E A B : Type} {result : Option (Except E A)} (ask : A → B) {answer : B}
    (hask : (result.bind Except.toOption).map ask = some answer) :
    ∃ value, result = some (.ok value) ∧ ask value = answer := by
  obtain ⟨value, hvalue, hanswer⟩ := Option.map_eq_some_iff.mp hask
  obtain ⟨result, rfl, hresult⟩ := Option.bind_eq_some_iff.mp hvalue
  cases result with
  | error err => cases hresult
  | ok found =>
      cases hresult
      exact ⟨_, rfl, hanswer⟩

/-! ## Slices -/

/-- The byte offsets of an ASCII character, from `offset` on. -/
def memchr (c : Char) : ℕ → Text → List ℕ
  | _, [] => []
  | offset, first :: rest =>
      if first = c then offset :: memchr c (offset + first.utf8Size) rest
      else memchr c (offset + first.utf8Size) rest

/-- `&text[start..stop]`. -/
def slice (text : Text) (start stop : ℕ) : Option Text :=
  if start ≤ stop then (takeBytes text stop).bind (dropBytes · start) else none

theorem slice_eq {text before middle after : Text} {start stop : ℕ}
    (htext : text = before ++ middle ++ after) (hstart : start = byteLength before)
    (hstop : stop = start + byteLength middle) : slice text start stop = some middle := by
  subst htext hstart hstop
  rw [slice, if_pos (Nat.le_add_right ..), ← byteLength_append, takeBytes_append,
    Option.bind_some, dropBytes_append]

theorem dropBytes_eq {text before after : Text} {start : ℕ} (htext : text = before ++ after)
    (hstart : start = byteLength before) : dropBytes text start = some after := by
  subst htext hstart
  exact dropBytes_append ..

theorem memchr_eq_nil {c : Char} {text : Text} (hmem : c ∉ text) (offset : ℕ) :
    memchr c offset text = [] := by
  induction text generalizing offset with
  | nil => rfl
  | cons first rest ih =>
      rw [List.mem_cons, not_or] at hmem
      rw [memchr, if_neg (Ne.symm hmem.1), ih hmem.2]

theorem memchr_append {c : Char} {before : Text} (hmem : c ∉ before) (after : Text)
    (offset : ℕ) : memchr c offset (before ++ c :: after) =
      (offset + byteLength before) ::
        memchr c (offset + byteLength before + c.utf8Size) after := by
  induction before generalizing offset with
  | nil => rw [List.nil_append, memchr, if_pos rfl, byteLength_nil, Nat.add_zero]
  | cons first rest ih =>
      rw [List.mem_cons, not_or] at hmem
      rw [List.cons_append, memchr, if_neg (Ne.symm hmem.1), ih hmem.2, byteLength_cons,
        Nat.add_assoc]

/-- A text without characters of several bytes. -/
def OneByte (text : Text) : Prop := ∀ c ∈ text, c.utf8Size = 1

theorem OneByte.append {left right : Text} (hleft : OneByte left) (hright : OneByte right) :
    OneByte (left ++ right) := by
  intro c hc
  rcases List.mem_append.mp hc with hc | hc
  · exact hleft c hc
  · exact hright c hc

theorem OneByte.byteLength_eq {text : Text} (htext : OneByte text) :
    byteLength text = text.length := by
  induction text with
  | nil => rfl
  | cons c text ih =>
      rw [byteLength_cons, htext c List.mem_cons_self,
        ih fun d hd => htext d (List.mem_cons_of_mem _ hd), List.length_cons, Nat.add_comm]

/-! ## Build tags -/

inductive BuildTagError where
  | empty
  | noLeadingDigit
  | parseInt (err : ParseIntError)
  deriving DecidableEq

namespace BuildTag

def fromStr (s : Text) : Except BuildTagError BuildTag :=
  if s.isEmpty then .error .empty
  else
    match s.span Char.isDigit with
    | ([], _) => .error .noLeadingDigit
    | (digits, suffix) =>
        match parseUnsigned 64 digits with
        | .error err => .error (.parseInt err)
        | .ok number =>
            .ok (toLex (number,
              if suffix.isEmpty then ⊥ else (String.ofList suffix : WithBot String)))

end BuildTag

/-! ## The file name -/

/-- The errors hold the file name. -/
inductive WheelFilenameError where
  | invalidWheelFileName (filename : Text) (message : String)
  | invalidPackageName (filename name : Text)
  | invalidVersion (filename : Text) (err : ErrorKind)
  | invalidBuildTag (filename : Text) (err : BuildTagError)

/-- The pieces between the delimiters; an empty piece at the end is left out. -/
def memchrSplit (delimiter : Char) (haystack : Text) : List Text :=
  match (haystack.splitOn delimiter).getLast? with
  | some [] => (haystack.splitOn delimiter).dropLast
  | _ => haystack.splitOn delimiter

namespace WheelFilename

/-- The tags, from the slices of the file name. -/
def parseTags (buildTag : Option BuildTag) (pythonTag abiTag platformTag : Text)
    (isSmall : Bool) (repr : Option Text) : Option WheelTag :=
  let small :=
    if isSmall then
      match LanguageTag.fromStr pythonTag, AbiTag.fromStr abiTag,
          PlatformTag.fromStr platformTag with
      | .ok pythonTag, .ok abiTag, .ok platformTag => some ⟨pythonTag, abiTag, platformTag⟩
      | _, _, _ => none
    else none
  match small with
  | some small => some (.small small)
  | none => repr.map fun repr => .large {
      buildTag := buildTag
      pythonTag := (memchrSplit '.' pythonTag).filterMap (LanguageTag.fromStr · |>.toOption)
      abiTag := (memchrSplit '.' abiTag).filterMap (AbiTag.fromStr · |>.toOption)
      platformTag := (memchrSplit '.' platformTag).filterMap (PlatformTag.fromStr · |>.toOption)
      repr := repr }

/-- The name and the version are read before the tags. -/
def parseParts (filename name version : Text) (buildTag : Option Text)
    (pythonTag abiTag platformTag : Text) (isSmall : Bool) (repr : Option Text) :
    Option (Except WheelFilenameError WheelFilename) :=
  match Name.fromStr name with
  | none => some (.error (.invalidPackageName filename name))
  | some packageName =>
      match Version.fromStr (VersionSpecifier.utf8 version) with
      | .error err => some (.error (.invalidVersion filename err))
      | .ok version =>
          match buildTag.mapM BuildTag.fromStr with
          | .error err => some (.error (.invalidBuildTag filename err))
          | .ok buildTag =>
              (parseTags buildTag pythonTag abiTag platformTag isSmall repr).map fun tags =>
                .ok ⟨packageName, version, tags⟩

/-- `WheelFilename::parse`. -/
def parse (stem filename : Text) : Option (Except WheelFilenameError WheelFilename) :=
  match memchr '-' 0 stem with
  | [] => some (.error (.invalidWheelFileName filename "Must have a version"))
  | [_] => some (.error (.invalidWheelFileName filename "Must have a Python tag"))
  | [_, _] => some (.error (.invalidWheelFileName filename "Must have an ABI tag"))
  | [_, _, _] => some (.error (.invalidWheelFileName filename "Must have a platform tag"))
  | [version, pythonTag, abiTag, platformTag] => do
      let name ← slice stem 0 version
      let versionText ← slice stem (version + 1) pythonTag
      let pythonText ← slice stem (pythonTag + 1) abiTag
      let abiText ← slice stem (abiTag + 1) platformTag
      let platformText ← dropBytes stem (platformTag + 1)
      let tags ← dropBytes stem pythonTag
      parseParts filename name versionText none pythonText abiText platformText
        (!tags.contains '.') (dropBytes stem (pythonTag + 1))
  | [version, buildTag, pythonTag, abiTag, platformTag] => do
      let name ← slice stem 0 version
      let versionText ← slice stem (version + 1) buildTag
      let buildText ← slice stem (buildTag + 1) pythonTag
      let pythonText ← slice stem (pythonTag + 1) abiTag
      let abiText ← slice stem (abiTag + 1) platformTag
      let platformText ← dropBytes stem (platformTag + 1)
      -- a build tag always takes the slow path
      parseParts filename name versionText (some buildText) pythonText abiText platformText
        false (dropBytes stem (buildTag + 1))
  | _ =>
      some (.error (.invalidWheelFileName filename "Must have 5 or 6 components, but has more"))

/-- `FromStr`. -/
def fromStr (filename : Text) : Option (Except WheelFilenameError WheelFilename) :=
  match stripSuffix ".whl".toList filename with
  | none => some (.error (.invalidWheelFileName filename "Must end with .whl"))
  | some stem => parse stem filename

/-! ## The parts -/

/-- A text without dashes, or the text before the first one and the rest. -/
theorem split_dash (text : Text) :
    '-' ∉ text ∨ ∃ before after, text = before ++ '-' :: after ∧ '-' ∉ before := by
  by_cases hmem : '-' ∈ text
  · exact .inr (List.eq_append_cons_of_mem hmem)
  · exact .inl hmem

/-- The text before the first dash and the text after it. -/
theorem dash_unique {before after other rest : Text} (hbefore : '-' ∉ before)
    (hother : '-' ∉ other) (heq : before ++ '-' :: after = other ++ '-' :: rest) :
    before = other ∧ after = rest := by
  have hsplit := splitOnce_append hbefore after
  rw [heq, splitOnce_append hother] at hsplit
  obtain ⟨rfl, rfl⟩ := Prod.mk.inj (Option.some.inj hsplit)
  exact ⟨rfl, rfl⟩

section Parts

variable {name version buildTag pythonTag abiTag platformTag : Text}

/-- The parts after the version. -/
def tagsText (pythonTag abiTag platformTag : Text) : Text :=
  pythonTag ++ '-' :: (abiTag ++ '-' :: platformTag)

/-- A name of five parts. -/
theorem parse_five (filename : Text) (hname : '-' ∉ name) (hversion : '-' ∉ version)
    (hpython : '-' ∉ pythonTag) (habi : '-' ∉ abiTag) (hplatform : '-' ∉ platformTag) :
    parse (name ++ '-' :: (version ++ '-' :: tagsText pythonTag abiTag platformTag)) filename =
      parseParts filename name version none pythonTag abiTag platformTag
        (!('-' :: tagsText pythonTag abiTag platformTag).contains '.')
        (some (tagsText pythonTag abiTag platformTag)) := by
  have hdash : Char.utf8Size '-' = 1 := by decide
  unfold tagsText
  generalize htext : name ++ '-' :: (version ++ '-' :: (pythonTag ++ '-' ::
    (abiTag ++ '-' :: platformTag))) = stem
  have hpositions := congrArg (memchr '-' 0) htext.symm
  rw [memchr_append hname, memchr_append hversion, memchr_append hpython, memchr_append habi,
    memchr_eq_nil hplatform] at hpositions
  simp only [hdash, Nat.zero_add] at hpositions
  have hsliceName : slice stem 0 (byteLength name) = some name :=
    slice_eq (show stem = [] ++ name ++ _ from htext.symm) rfl (by omega)
  have hsliceVersion : slice stem (byteLength name + 1) _ = some version :=
    slice_eq (show stem = (name ++ ['-']) ++ version ++ ('-' :: (pythonTag ++ '-' ::
      (abiTag ++ '-' :: platformTag))) by simp [← htext]) (by simp [hdash]) rfl
  have hslicePython : slice stem (byteLength name + 1 + byteLength version + 1) _ =
      some pythonTag :=
    slice_eq (show stem = (name ++ '-' :: version ++ ['-']) ++ pythonTag ++ ('-' ::
      (abiTag ++ '-' :: platformTag)) by simp [← htext]) (by simp [hdash]; omega) rfl
  have hsliceAbi : slice stem (byteLength name + 1 + byteLength version + 1 +
      byteLength pythonTag + 1) _ = some abiTag :=
    slice_eq (show stem = (name ++ '-' :: version ++ '-' :: pythonTag ++ ['-']) ++ abiTag ++
      ('-' :: platformTag) by simp [← htext]) (by simp [hdash]; omega) rfl
  have hslicePlatform : dropBytes stem (byteLength name + 1 + byteLength version + 1 +
      byteLength pythonTag + 1 + byteLength abiTag + 1) = some platformTag :=
    dropBytes_eq (show stem = (name ++ '-' :: version ++ '-' :: pythonTag ++ '-' :: abiTag ++
      ['-']) ++ platformTag by simp [← htext]) (by simp [hdash]; omega)
  have hsliceTags : dropBytes stem (byteLength name + 1 + byteLength version) =
      some ('-' :: (pythonTag ++ '-' :: (abiTag ++ '-' :: platformTag))) :=
    dropBytes_eq (show stem = (name ++ '-' :: version) ++ _ by simp [← htext])
      (by simp [hdash]; omega)
  have hsliceRepr : dropBytes stem (byteLength name + 1 + byteLength version + 1) =
      some (pythonTag ++ '-' :: (abiTag ++ '-' :: platformTag)) :=
    dropBytes_eq (show stem = (name ++ '-' :: version ++ ['-']) ++ _ by simp [← htext])
      (by simp [hdash]; omega)
  simp only [parse, hpositions, hsliceName, hsliceVersion, hslicePython, hsliceAbi,
    hslicePlatform, hsliceTags, hsliceRepr, Option.bind_eq_bind, Option.bind_some]

/-- A name of six parts, which has a build tag. -/
theorem parse_six (filename : Text) (hname : '-' ∉ name) (hversion : '-' ∉ version)
    (hbuild : '-' ∉ buildTag) (hpython : '-' ∉ pythonTag) (habi : '-' ∉ abiTag)
    (hplatform : '-' ∉ platformTag) :
    parse (name ++ '-' :: (version ++ '-' :: (buildTag ++ '-' ::
        tagsText pythonTag abiTag platformTag))) filename =
      parseParts filename name version (some buildTag) pythonTag abiTag platformTag false
        (some (buildTag ++ '-' :: tagsText pythonTag abiTag platformTag)) := by
  have hdash : Char.utf8Size '-' = 1 := by decide
  unfold tagsText
  generalize htext : name ++ '-' :: (version ++ '-' :: (buildTag ++ '-' :: (pythonTag ++ '-' ::
    (abiTag ++ '-' :: platformTag)))) = stem
  have hpositions := congrArg (memchr '-' 0) htext.symm
  rw [memchr_append hname, memchr_append hversion, memchr_append hbuild, memchr_append hpython,
    memchr_append habi, memchr_eq_nil hplatform] at hpositions
  simp only [hdash, Nat.zero_add] at hpositions
  have hsliceName : slice stem 0 (byteLength name) = some name :=
    slice_eq (show stem = [] ++ name ++ _ from htext.symm) rfl (by omega)
  have hsliceVersion : slice stem (byteLength name + 1) _ = some version :=
    slice_eq (show stem = (name ++ ['-']) ++ version ++ ('-' :: (buildTag ++ '-' ::
      (pythonTag ++ '-' :: (abiTag ++ '-' :: platformTag)))) by simp [← htext])
      (by simp [hdash]) rfl
  have hsliceBuild : slice stem (byteLength name + 1 + byteLength version + 1) _ =
      some buildTag :=
    slice_eq (show stem = (name ++ '-' :: version ++ ['-']) ++ buildTag ++ ('-' ::
      (pythonTag ++ '-' :: (abiTag ++ '-' :: platformTag))) by simp [← htext])
      (by simp [hdash]; omega) rfl
  have hslicePython : slice stem (byteLength name + 1 + byteLength version + 1 +
      byteLength buildTag + 1) _ = some pythonTag :=
    slice_eq (show stem = (name ++ '-' :: version ++ '-' :: buildTag ++ ['-']) ++ pythonTag ++
      ('-' :: (abiTag ++ '-' :: platformTag)) by simp [← htext]) (by simp [hdash]; omega) rfl
  have hsliceAbi : slice stem (byteLength name + 1 + byteLength version + 1 +
      byteLength buildTag + 1 + byteLength pythonTag + 1) _ = some abiTag :=
    slice_eq (show stem = (name ++ '-' :: version ++ '-' :: buildTag ++ '-' :: pythonTag ++
      ['-']) ++ abiTag ++ ('-' :: platformTag) by simp [← htext]) (by simp [hdash]; omega) rfl
  have hslicePlatform : dropBytes stem (byteLength name + 1 + byteLength version + 1 +
      byteLength buildTag + 1 + byteLength pythonTag + 1 + byteLength abiTag + 1) =
      some platformTag :=
    dropBytes_eq (show stem = (name ++ '-' :: version ++ '-' :: buildTag ++ '-' :: pythonTag ++
      '-' :: abiTag ++ ['-']) ++ platformTag by simp [← htext]) (by simp [hdash]; omega)
  have hsliceRepr : dropBytes stem (byteLength name + 1 + byteLength version + 1) =
      some (buildTag ++ '-' :: (pythonTag ++ '-' :: (abiTag ++ '-' :: platformTag))) :=
    dropBytes_eq (show stem = (name ++ '-' :: version ++ ['-']) ++ _ by simp [← htext])
      (by simp [hdash]; omega)
  simp only [parse, hpositions, hsliceName, hsliceVersion, hsliceBuild, hslicePython, hsliceAbi,
    hslicePlatform, hsliceRepr, Option.bind_eq_bind, Option.bind_some]

/-- A file name without five or six parts is refused. -/
def WrongParts (stem : Text) : Prop :=
  ∀ filename, ∃ message,
    parse stem filename = some (.error (.invalidWheelFileName filename message))

/-- The three kinds of file names. -/
theorem parts_cases (stem : Text) : WrongParts stem ∨
    (∃ name version pythonTag abiTag platformTag : Text, '-' ∉ name ∧ '-' ∉ version ∧
      '-' ∉ pythonTag ∧ '-' ∉ abiTag ∧ '-' ∉ platformTag ∧
      stem = name ++ '-' :: (version ++ '-' :: tagsText pythonTag abiTag platformTag)) ∨
    ∃ name version buildTag pythonTag abiTag platformTag : Text, '-' ∉ name ∧ '-' ∉ version ∧
      '-' ∉ buildTag ∧ '-' ∉ pythonTag ∧ '-' ∉ abiTag ∧ '-' ∉ platformTag ∧
      stem = name ++ '-' :: (version ++ '-' :: (buildTag ++ '-' ::
        tagsText pythonTag abiTag platformTag)) := by
  rcases split_dash stem with h₁ | ⟨first, rest, rfl, h₁⟩
  · exact .inl fun filename => ⟨_, by rw [parse, memchr_eq_nil h₁]⟩
  rcases split_dash rest with h₂ | ⟨second, rest, rfl, h₂⟩
  · exact .inl fun filename => ⟨_, by rw [parse, memchr_append h₁, memchr_eq_nil h₂]⟩
  rcases split_dash rest with h₃ | ⟨third, rest, rfl, h₃⟩
  · exact .inl fun filename => ⟨_, by
      rw [parse, memchr_append h₁, memchr_append h₂, memchr_eq_nil h₃]⟩
  rcases split_dash rest with h₄ | ⟨fourth, rest, rfl, h₄⟩
  · exact .inl fun filename => ⟨_, by
      rw [parse, memchr_append h₁, memchr_append h₂, memchr_append h₃, memchr_eq_nil h₄]⟩
  rcases split_dash rest with h₅ | ⟨fifth, rest, rfl, h₅⟩
  · exact .inr (.inl ⟨first, second, third, fourth, rest, h₁, h₂, h₃, h₄, h₅, rfl⟩)
  rcases split_dash rest with h₆ | ⟨sixth, rest, rfl, h₆⟩
  · exact .inr (.inr ⟨first, second, third, fourth, fifth, rest, h₁, h₂, h₃, h₄, h₅, h₆, rfl⟩)
  · exact .inl fun filename => ⟨_, by
      rw [parse, memchr_append h₁, memchr_append h₂, memchr_append h₃, memchr_append h₄,
        memchr_append h₅, memchr_append h₆]⟩

end Parts

theorem isSome_parseTags (buildTag : Option BuildTag) (pythonTag abiTag platformTag : Text)
    (isSmall : Bool) (repr : Text) :
    (parseTags buildTag pythonTag abiTag platformTag isSmall (some repr)).isSome = true := by
  unfold parseTags
  simp only
  split <;> rfl

theorem isSome_parseParts (filename name version : Text) (buildTag : Option Text)
    (pythonTag abiTag platformTag : Text) (isSmall : Bool) (repr : Text) :
    (parseParts filename name version buildTag pythonTag abiTag platformTag isSmall
      (some repr)).isSome = true := by
  unfold parseParts
  repeat' split
  all_goals first
    | rfl
    | rw [Option.isSome_map]; exact isSome_parseTags ..

/-- Every slice of a wheel file name is between two characters. -/
theorem isSome_parse (stem filename : Text) : (parse stem filename).isSome = true := by
  rcases parts_cases stem with hwrong | ⟨name, version, pythonTag, abiTag, platformTag, hname,
    hversion, hpython, habi, hplatform, rfl⟩ | ⟨name, version, buildTag, pythonTag, abiTag,
    platformTag, hname, hversion, hbuild, hpython, habi, hplatform, rfl⟩
  · obtain ⟨message, heq⟩ := hwrong filename
    rw [heq]
    rfl
  · rw [parse_five filename hname hversion hpython habi hplatform]
    exact isSome_parseParts ..
  · rw [parse_six filename hname hversion hbuild hpython habi hplatform]
    exact isSome_parseParts ..

theorem isSome_fromStr (filename : Text) : (fromStr filename).isSome = true := by
  unfold fromStr
  split
  · rfl
  · exact isSome_parse ..

end WheelFilename

end Uv.DistributionFilename
