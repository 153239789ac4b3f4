import Uv.CacheKey.CanonicalUrl

/-!
# Which URLs are the same

Two canonical URLs are equal iff the decoded segments of their paths are, without the `.git`
extensions, and the other components.
-/

namespace Uv.CacheKey

open Uv.Auth (Text Byte textBytes percentDecode percentDecodeUtf8 decodeUtf8_textBytes hexDigit)

/-! ## Encoding -/

theorem percentDecode_cons {byte : Byte} (hbyte : byte ≠ 37) (rest : List Byte) :
    percentDecode (byte :: rest) = byte :: percentDecode rest := by
  match rest with
  | [] => rfl
  | [_] => rfl
  | _ :: _ :: _ => rw [percentDecode, if_neg hbyte]

theorem percentDecode_eq_self {bytes : List Byte} (hbytes : (37 : Byte) ∉ bytes) :
    percentDecode bytes = bytes := by
  induction bytes with
  | nil => rfl
  | cons byte rest ih =>
      rw [List.mem_cons, not_or] at hbytes
      rw [percentDecode_cons (Ne.symm hbytes.1), ih hbytes.2]

theorem utf8EncodeChar_ascii {c : Char} (hc : c.toNat < 128) :
    String.utf8EncodeChar c = [UInt8.ofNat c.toNat] := by
  have hval : c.val.toNat ≤ 127 := Nat.le_of_lt_succ hc
  rw [String.utf8EncodeChar, if_pos hval]
  rfl

theorem textBytes_append (left right : Text) :
    textBytes (left ++ right) = textBytes left ++ textBytes right :=
  List.flatMap_append

/-- A digit is decoded from its byte. -/
theorem hexDigit_hexDigitOf : ∀ n < 16, ∃ byte, textBytes [hexDigitOf n] = [byte] ∧
    hexDigit byte = some (UInt8.ofNat n) := by
  have hall : ∀ n < 16, textBytes [hexDigitOf n] = [UInt8.ofNat (hexDigitOf n).toNat] ∧
      hexDigit (UInt8.ofNat (hexDigitOf n).toNat) = some (UInt8.ofNat n) := by
    decide +kernel
  exact fun n hn => ⟨_, hall n hn⟩

theorem ofNat_digits : ∀ n < 256,
    UInt8.ofNat (n / 16) * 16 + UInt8.ofNat (n % 16) = UInt8.ofNat n := by
  decide +kernel

/-- An encoded byte is decoded again. -/
theorem percentDecode_encodeByte (plain : Char → Bool) (byte : Byte) (rest : List Byte) :
    percentDecode (textBytes (encodeByte plain byte) ++ rest) = byte :: percentDecode rest := by
  have hbyte : byte.toNat < 256 := byte.toNat_lt
  rw [encodeByte]
  split_ifs with hplain
  · obtain ⟨hascii, _, _, hpercent⟩ := hplain
    have hlt : byte.toNat < 128 := hascii
    have hall : ∀ n < 128, (Char.ofNat n).toNat = n := by decide
    have hc : (Char.ofNat byte.toNat).toNat = byte.toNat := hall _ hlt
    have hsame : textBytes [Char.ofNat byte.toNat] = [byte] := by
      rw [textBytes, List.flatMap_singleton, utf8EncodeChar_ascii (by omega), hc,
        UInt8.ofNat_toNat]
    rw [hsame, List.singleton_append, percentDecode_cons]
    rintro rfl
    exact hpercent rfl
  · obtain ⟨high, hhigh, hhighDigit⟩ := hexDigit_hexDigitOf (byte.toNat / 16) (by omega)
    obtain ⟨low, hlow, hlowDigit⟩ := hexDigit_hexDigitOf (byte.toNat % 16) (by omega)
    have hbytes : textBytes ['%', hexDigitOf (byte.toNat / 16), hexDigitOf (byte.toNat % 16)] =
        [37, high, low] := by
      calc textBytes (['%'] ++ [hexDigitOf (byte.toNat / 16)] ++ [hexDigitOf (byte.toNat % 16)])
          = textBytes ['%'] ++ [high] ++ [low] := by
            rw [textBytes_append, textBytes_append, hhigh, hlow]
        _ = [37, high, low] := rfl
    rw [hbytes]
    change percentDecode (37 :: high :: low :: rest) = _
    rw [percentDecode, if_pos rfl, hhighDigit, hlowDigit]
    dsimp only
    rw [ofNat_digits _ hbyte, UInt8.ofNat_toNat]

theorem percentDecode_encodeBytes (plain : Char → Bool) (bytes : List Byte) :
    percentDecode (textBytes (bytes.flatMap (encodeByte plain))) = bytes := by
  induction bytes with
  | nil => rfl
  | cons byte rest ih =>
      rw [List.flatMap_cons, textBytes_append, percentDecode_encodeByte, ih]

/-- An encoded segment is decoded again. -/
theorem percentDecodeUtf8_encodeSegment (plain : Char → Bool) (segment : Text) :
    percentDecodeUtf8 (encodeSegment plain segment) = some segment := by
  rw [percentDecodeUtf8, encodeSegment, percentDecode_encodeBytes, decodeUtf8_textBytes]

theorem encodeSegment_injective (plain : Char → Bool) :
    Function.Injective (encodeSegment plain) := by
  intro left right heq
  have hdecoded := congrArg percentDecodeUtf8 heq
  rw [percentDecodeUtf8_encodeSegment, percentDecodeUtf8_encodeSegment] at hdecoded
  exact Option.some.inj hdecoded

theorem slash_notMem_encodeSegment (plain : Char → Bool) (segment : Text) :
    '/' ∉ encodeSegment plain segment := by
  have hdigit : ∀ n < 16, hexDigitOf n ≠ '/' := by decide
  intro hmem
  obtain ⟨byte, _, hmem⟩ := List.mem_flatMap.mp hmem
  have hbyte : byte.toNat < 256 := byte.toNat_lt
  rw [encodeByte] at hmem
  split_ifs at hmem with hplain
  · exact hplain.2.2.1 (List.mem_singleton.mp hmem).symm
  · have hhigh := hdigit (byte.toNat / 16) (by omega)
    have hlow := hdigit (byte.toNat % 16) (by omega)
    simp [hhigh.symm, hlow.symm] at hmem

/-- The characters of a path are ASCII, and stay as they are. -/
def Literal (plain : Char → Bool) (text : Text) : Prop :=
  ∀ c ∈ text, plain c = true ∧ c.toNat < 128

theorem textBytes_literal {plain : Char → Bool} {text : Text} (htext : Literal plain text) :
    textBytes text = text.map fun c => UInt8.ofNat c.toNat := by
  induction text with
  | nil => rfl
  | cons c rest ih =>
      rw [Literal, List.forall_mem_cons] at htext
      rw [List.map_cons, ← ih htext.2, textBytes, List.flatMap_cons,
        utf8EncodeChar_ascii htext.1.2]
      rfl

/-- A segment without percent signs is encoded as it is. -/
theorem encodeSegment_literal {plain : Char → Bool} {segment : Text}
    (hsegment : Literal plain segment) (hslash : '/' ∉ segment) (hpercent : '%' ∉ segment) :
    encodeSegment plain segment = segment := by
  rw [encodeSegment, textBytes_literal hsegment, List.flatMap_map]
  have hbyte : ∀ c ∈ segment, encodeByte plain (UInt8.ofNat c.toNat) = [c] := by
    intro c hc
    obtain ⟨hplain, hascii⟩ := hsegment c hc
    have htoNat : (UInt8.ofNat c.toNat).toNat = c.toNat := by
      rw [UInt8.toNat_ofNat']
      omega
    have hlt : UInt8.ofNat c.toNat < 128 := by
      rw [UInt8.lt_iff_toNat_lt, htoNat]
      exact hascii
    rw [encodeByte, htoNat, Char.ofNat_toNat]
    exact if_pos ⟨hlt, hplain, fun heq => hslash (heq ▸ hc), fun heq => hpercent (heq ▸ hc)⟩
  rw [List.flatMap_congr hbyte, List.flatMap_singleton']

theorem decodeSegment_literal {plain : Char → Bool} {segment : Text}
    (hsegment : Literal plain segment) (hpercent : '%' ∉ segment) :
    decodeSegment segment = segment := by
  have hbytes : (37 : Byte) ∉ textBytes segment := by
    rw [textBytes_literal hsegment]
    intro hmem
    obtain ⟨c, hc, heq⟩ := List.mem_map.mp hmem
    have hascii := (hsegment c hc).2
    have htoNat : (UInt8.ofNat c.toNat).toNat = c.toNat := by
      rw [UInt8.toNat_ofNat']
      omega
    have hcode : c.toNat = 37 := by
      rw [← htoNat, heq]
      rfl
    apply hpercent
    have hchar : c = '%' := Char.toNat_inj.mp hcode
    exact hchar ▸ hc
  rw [decodeSegment, percentDecodeUtf8, percentDecode_eq_self hbytes, decodeUtf8_textBytes]
  rfl

/-! ## Decoded segments -/

/-- The decoded segments of a path. -/
def decodedSegments (path : Text) : Option (List Text) :=
  (pathSegments path).map fun segments => segments.map decodeSegment

/-- The path with the segments. -/
def pathOf (plain : Char → Bool) : Option (List Text) → Text
  | none => []
  | some segments => '/' :: ['/'].intercalate (segments.map (encodeSegment plain))

theorem pathOf_inj {plain : Char → Bool} {left right : Option (List Text)}
    (hleft : left ≠ some []) (hright : right ≠ some []) :
    pathOf plain left = pathOf plain right ↔ left = right := by
  constructor
  · intro heq
    cases left with
    | none => cases right with
      | none => rfl
      | some segments => cases heq
    | some segments => cases right with
      | none => cases heq
      | some segments' =>
          have hsplit : ∀ {segments : List Text}, some segments ≠ some [] →
              (['/'].intercalate (segments.map (encodeSegment plain))).splitOn '/' =
                segments.map (encodeSegment plain) := by
            intro segments hne
            apply List.splitOn_intercalate
            · intro encoded hencoded
              obtain ⟨segment, _, rfl⟩ := List.mem_map.mp hencoded
              exact slash_notMem_encodeSegment plain segment
            · simpa using hne
          have htail := (List.cons.inj heq).2
          have hmap : segments.map (encodeSegment plain) =
              segments'.map (encodeSegment plain) := by
            rw [← hsplit hleft, htail, hsplit hright]
          rw [List.map_injective_iff.mpr (encodeSegment_injective plain) hmap]
  · rintro rfl
    rfl

/-! ## Decoding a path -/

theorem intercalate_cons_flatMap (first : Text) (rest : List Text) :
    ['/'].intercalate (first :: rest) = first ++ rest.flatMap fun segment => '/' :: segment := by
  induction rest generalizing first with
  | nil => simp
  | cons second rest ih =>
      rw [List.intercalate_cons_cons, ih, List.flatMap_cons]
      simp

section Decoding

variable {crate : UrlCrate} {scheme : Text}

/-- Segments are pushed one after the other. -/
theorem foldl_push (hlawful : crate.Lawful) {path : Text} (segments : List Text)
    (hrooted : path.head? = some '/') (hpath : path ≠ ['/'])
    (hordinary : ∀ segment ∈ segments, Ordinary scheme segment) :
    segments.foldl (crate.push scheme) path =
      path ++ (segments.map (encodeSegment (crate.plain scheme))).flatMap ('/' :: ·) := by
  induction segments generalizing path with
  | nil => simp
  | cons segment rest ih =>
      rw [List.forall_mem_cons] at hordinary
      have hpush : crate.push scheme path segment =
          path ++ '/' :: encodeSegment (crate.plain scheme) segment := by
        rw [hlawful.push_ordinary _ _ _ hrooted hordinary.1, if_neg hpath]
        simp
      have hhead : (path ++ '/' :: encodeSegment (crate.plain scheme) segment).head? =
          some '/' := by
        cases path with
        | nil => cases hrooted
        | cons c tail => exact hrooted
      have hne : path ++ '/' :: encodeSegment (crate.plain scheme) segment ≠ ['/'] := by
        cases path with
        | nil => cases hrooted
        | cons c tail => simp
      rw [List.foldl_cons, hpush, ih hhead hne hordinary.2, List.map_cons, List.flatMap_cons]
      simp

/-- Decoded segments that parsing and pushing keep. -/
def Pushable (scheme path : Text) : Prop :=
  '%' ∈ path → ∀ segments, decodedSegments path = some segments →
    segments.head? ≠ some [] ∧ ∀ segment ∈ segments, Ordinary scheme segment

/-- The path of a canonical URL has the decoded segments. -/
theorem decodePath_eq (hlawful : crate.Lawful) {path : Text} (hrooted : Rooted path)
    (hliteral : Literal (crate.plain scheme) path) (hpushable : Pushable scheme path) :
    decodePath crate scheme path = some (pathOf (crate.plain scheme) (decodedSegments path)) := by
  rcases hrooted with rfl | hrooted
  · rfl
  obtain ⟨rest, rfl⟩ : ∃ rest, path = '/' :: rest := by
    cases path with
    | nil => cases hrooted
    | cons c rest =>
        cases hrooted
        exact ⟨rest, rfl⟩
  have hdecoded : decodedSegments ('/' :: rest) =
      some ((rest.splitOn '/').map decodeSegment) := rfl
  rw [decodePath, hdecoded]
  split_ifs with hpercent
  · obtain ⟨hhead, hordinary⟩ := hpushable hpercent _ hdecoded
    change some _ = some _
    congr 1
    obtain ⟨first, others, hsegments⟩ : ∃ first others,
        (rest.splitOn '/').map decodeSegment = first :: others :=
      List.exists_cons_of_ne_nil (by simp)
    rw [hsegments, List.forall_mem_cons] at hordinary
    rw [hsegments, List.head?_cons, ne_eq, Option.some.injEq] at hhead
    have hfirst : encodeSegment (crate.plain scheme) first ≠ [] :=
      fun heq => hhead (encodeSegment_injective _ heq)
    have hpush : crate.push scheme ['/'] first =
        '/' :: encodeSegment (crate.plain scheme) first := by
      rw [hlawful.push_ordinary _ _ _ rfl hordinary.1, if_pos rfl]
      rfl
    calc ((rest.splitOn '/').map decodeSegment).foldl (crate.push scheme) ['/']
        = others.foldl (crate.push scheme) ('/' :: encodeSegment (crate.plain scheme) first) := by
          rw [hsegments, List.foldl_cons, hpush]
      _ = '/' :: encodeSegment (crate.plain scheme) first ++
            (others.map (encodeSegment (crate.plain scheme))).flatMap ('/' :: ·) := by
          apply foldl_push hlawful others rfl _ hordinary.2
          simpa using hfirst
      _ = pathOf (crate.plain scheme) (some ((rest.splitOn '/').map decodeSegment)) := by
          rw [hsegments, pathOf, List.map_cons, intercalate_cons_flatMap]
          rfl
  · have hkept : ((rest.splitOn '/').map decodeSegment).map (encodeSegment (crate.plain scheme)) =
        rest.splitOn '/' := by
      rw [List.map_map]
      conv_rhs => rw [← List.map_id (rest.splitOn '/')]
      apply List.map_congr_left
      intro segment hsegment
      obtain ⟨hsublist, hslash⟩ := sublist_of_mem_splitOn hsegment
      have hmem : ∀ c ∈ segment, c ∈ '/' :: rest :=
        fun c hc => List.mem_cons_of_mem _ (hsublist.subset hc)
      have hsegment : Literal (crate.plain scheme) segment := fun c hc => hliteral c (hmem c hc)
      have hnoPercent : '%' ∉ segment := fun hc => hpercent (hmem _ hc)
      rw [Function.comp_apply, decodeSegment_literal hsegment hnoPercent,
        encodeSegment_literal hsegment hslash hnoPercent]
      rfl
    rw [pathOf, hkept, List.intercalate_splitOn]

end Decoding

/-! ## Without the extension -/

/-- A segment without `.git`, in any case, after something. -/
def gitStem (segment : Text) : Text :=
  let stem := segment.take (segment.length - 4)
  if stem ≠ [] ∧ (segment.drop (segment.length - 4)).map Char.toLower = ".git".toList then stem
  else segment

/-- Change the last segment. -/
def mapLast (stem : Text → Text) (text : Text) : Text :=
  match rsplitOnce '/' text with
  | some (before, last) => before ++ '/' :: stem last
  | none => stem text

/-- Change the last segment of the path, or of the part before the last `@`. -/
def variantPath (stem : Text → Text) (path : Text) : Text :=
  match rsplitOnce '@' path with
  | some (before, suffix) => mapLast stem before ++ '@' :: suffix
  | none => mapLast stem path

theorem mapLast_append {front last : Text} (stem : Text → Text) (hlast : '/' ∉ last) :
    mapLast stem (front ++ '/' :: last) = front ++ '/' :: stem last := by
  rw [mapLast, rsplitOnce_append hlast]

theorem isGitName_iff {segment : Text} : IsGitName segment ↔
    segment.take (segment.length - 4) ≠ [] ∧
      (segment.drop (segment.length - 4)).map Char.toLower = ".git".toList := by
  have hfour : ".git".toList.length = 4 := by decide
  constructor
  · rintro ⟨stem, git, hstem, rfl, hgit⟩
    have hthree : git.length = 3 := by
      have hlength := congrArg List.length hgit
      rwa [List.length_map] at hlength
    have hcut : (stem ++ '.' :: git).length - 4 = stem.length := by
      rw [List.length_append, List.length_cons]
      omega
    rw [hcut, List.take_left, List.drop_left, List.map_cons, hgit]
    exact ⟨hstem, rfl⟩
  · rintro ⟨hstem, hgit⟩
    obtain ⟨dot, git, hdrop, hdot, hlower⟩ := List.map_eq_cons_iff.mp hgit
    have hdot' : dot = '.' := (toLower_eq_iff (by decide)).mp hdot
    refine ⟨_, git, hstem, ?_, hlower⟩
    rw [← hdot', ← hdrop, List.take_append_drop]

theorem gitStem_of_not {segment : Text} (hsegment : ¬ IsGitName segment) :
    gitStem segment = segment :=
  if_neg (mt isGitName_iff.mpr hsegment)

theorem gitStem_of_isGitName {segment : Text} (hsegment : IsGitName segment) :
    gitStem segment = segment.take (segment.length - 4) ∧ gitStem segment ≠ [] := by
  have hparts := isGitName_iff.mp hsegment
  have heq : gitStem segment = segment.take (segment.length - 4) := if_pos hparts
  exact ⟨heq, heq ▸ hparts.1⟩

/-- A last segment that ends with `.git` is the extension of the path. -/
theorem hasGitExtension_of_isGitName {front last : Text} (hslash : '/' ∉ last)
    (hlast : IsGitName last) : hasGitExtension (front ++ '/' :: last) = true := by
  have hfive := hlast.length
  have hne : ∀ short : Text, short.length < 5 → last ≠ short := by
    rintro short hshort rfl
    omega
  rw [hasGitExtension_iff, fileName_of_last hslash (hne [] (by decide)) (hne ['.'] (by decide))]
  exact ⟨last, by simp [Option.filter, hne ['.', '.'] (by decide)], hlast⟩

/-- The last segment is the one with the extension, unless it is empty or a dot. -/
theorem isGitName_of_hasGitExtension {front last : Text} (hslash : '/' ∉ last) (hlast : last ≠ [])
    (hdot : last ≠ ['.']) (hgit : hasGitExtension (front ++ '/' :: last) = true) :
    IsGitName last := by
  obtain ⟨file, hfile, hname⟩ := hasGitExtension_iff.mp hgit
  rw [fileName_of_last hslash hlast hdot] at hfile
  cases (Option.filter_eq_some_iff.mp hfile).1
  exact hname

/-- What parsing, pushing and the extension keep of a path. -/
structure Regular (scheme path : Text) : Prop where
  reference : ∀ before suffix, rsplitOnce '@' path = some (before, suffix) →
    hasGitExtension before = true → ∃ front last, before = front ++ '/' :: last ∧ '/' ∉ last ∧
      IsGitName last
  extension : '@' ∉ path → ∀ front last, path = front ++ '/' :: last → '/' ∉ last →
    IsGitName last → front ≠ ['/'] ∧ '%' ∉ last ∧ Ordinary scheme (gitStem last)
  pushable : Pushable scheme (variantPath gitStem path)

section Removing

variable {crate : UrlCrate} {scheme : Text}

theorem splitOn_append {start : Text} (hstart : '/' ∉ start) (rest : Text) :
    (start ++ rest).splitOn '/' = (rest.splitOn '/').modifyHead (start ++ ·) := by
  induction start with
  | nil =>
      obtain ⟨first, others, heq⟩ := List.exists_cons_of_ne_nil (List.splitOn_ne_nil '/' rest)
      simp [heq]
  | cons c start ih =>
      rw [List.mem_cons, not_or] at hstart
      have hc : ¬ (c == '/') = true := fun heq => hstart.1 (beq_iff_eq.mp heq).symm
      obtain ⟨first, others, heq⟩ := List.exists_cons_of_ne_nil (List.splitOn_ne_nil '/' rest)
      rw [List.cons_append, List.splitOn_cons_eq_if_modifyHead, if_neg hc, ih hstart.2, heq]
      rfl

/-- The segments after the root. -/
def frontSegments (front : Text) : List Text :=
  if front = [] then [] else (front.drop 1).splitOn '/'

theorem segments_append (front rest : Text) :
    ((front ++ '/' :: rest).drop 1).splitOn '/' = frontSegments front ++ rest.splitOn '/' := by
  cases front with
  | nil => rfl
  | cons c front => exact List.splitOn_append_cons_self front rest

/-- A name before a reference is a part of one segment. -/
theorem segments_reference {name : Text} (hname : '/' ∉ name) (suffix : Text) :
    ∃ first others, suffix.splitOn '/' = first :: others ∧
      (name ++ '@' :: suffix).splitOn '/' = (name ++ '@' :: first) :: others := by
  obtain ⟨first, others, heq⟩ := List.exists_cons_of_ne_nil (List.splitOn_ne_nil '/' suffix)
  refine ⟨first, others, heq, ?_⟩
  rw [splitOn_append hname, List.splitOn_cons_eq_if_modifyHead, if_neg (by decide), heq]
  rfl

/-- The name before a reference can be made shorter. -/
theorem parsedPath_reference {front last stem suffix : Text} (hlast : '/' ∉ last)
    (hstem : ∀ c ∈ stem, c ∈ last) (hne : stem ≠ [])
    (hparsed : crate.ParsedPath scheme (front ++ '/' :: (last ++ '@' :: suffix))) :
    crate.ParsedPath scheme (front ++ '/' :: (stem ++ '@' :: suffix)) := by
  have hslash : '/' ∉ stem := fun hmem => hlast (hstem _ hmem)
  obtain ⟨first, others, hsuffix, hnew⟩ := segments_reference hslash suffix
  obtain ⟨_, _, hsuffix', hold⟩ := segments_reference hlast suffix
  cases hsuffix.symm.trans hsuffix'
  have hat : ∀ dots ∈ dotSegments, '@' ∉ dots := by decide
  constructor
  case rooted =>
    have hrooted := hparsed.rooted
    cases front with
    | nil => rfl
    | cons c front => exact hrooted
  case plain =>
    intro c hc
    apply hparsed.plain
    simp only [List.mem_append, List.mem_cons] at hc ⊢
    rcases hc with hfront | hslash | hmem | hrest
    · exact Or.inl hfront
    · exact Or.inr (Or.inl hslash)
    · exact Or.inr (Or.inr (Or.inl (hstem c hmem)))
    · exact Or.inr (Or.inr (Or.inr hrest))
  case noDots =>
    intro segment hsegment
    rw [segments_append, hnew, List.mem_append, List.mem_cons] at hsegment
    rcases hsegment with hfront | rfl | hothers
    · apply hparsed.noDots
      rw [segments_append]
      exact List.mem_append_left _ hfront
    · intro hdots
      apply hat _ hdots
      exact List.mem_map.mpr ⟨'@', by simp, rfl⟩
    · apply hparsed.noDots
      rw [segments_append, hold]
      exact List.mem_append_right _ (List.mem_cons_of_mem _ hothers)
  case file =>
    intro hfile hslashes
    apply hparsed.file hfile
    cases front with
    | nil =>
        obtain ⟨c, tail, rfl⟩ := List.exists_cons_of_ne_nil hne
        have hc : '/' = c := by simpa using hslashes
        exact (hslash (hc ▸ List.mem_cons_self)).elim
    | cons c front =>
        cases front with
        | nil => simpa using hslashes
        | cons d front => simpa using hslashes
  case drive =>
    intro hfile letter halpha hhead
    rw [segments_append, hnew] at hhead
    by_cases hfront : front = []
    · rw [hfront] at hhead
      have hsame : stem ++ '@' :: first = [letter, '|'] := Option.some.inj hhead
      have hmem : '@' ∈ [letter, '|'] := by
        rw [← hsame]
        simp
      have hletter : letter = '@' := by simpa [eq_comm] using hmem
      rw [hletter] at halpha
      cases halpha
    · apply hparsed.drive hfile letter halpha
      have hsegments : frontSegments front ≠ [] := by
        rw [frontSegments, if_neg hfront]
        exact List.splitOn_ne_nil _ _
      rw [List.head?_append_of_ne_nil _ hsegments] at hhead
      rw [segments_append, List.head?_append_of_ne_nil _ hsegments]
      exact hhead

theorem pop_append {front last : Text} (hrooted : (front ++ '/' :: last).head? = some '/')
    (hlast : '/' ∉ last) :
    pop (front ++ '/' :: last) = if front = [] then ['/'] else front := by
  cases front with
  | nil =>
      rw [pop, List.nil_append, List.drop_one, List.tail_cons, rsplitOnce_eq_none_iff.mpr hlast]
      rfl
  | cons c front =>
      cases hrooted
      have hsplit : rsplitOnce '/' (front ++ '/' :: last) = some (front, last) :=
        rsplitOnce_append hlast
      change ['/'] ++ ((rsplitOnce '/' (front ++ '/' :: last)).map (·.1)).getD [] = _
      rw [hsplit]
      rfl

/-- The extension before a reference is removed. -/
theorem removeGit_reference (hlawful : crate.Lawful) {before suffix : Text}
    (hsuffix : '@' ∉ suffix) (hparsed : crate.ParsedPath scheme (before ++ '@' :: suffix))
    (hregular : Regular scheme (before ++ '@' :: suffix)) :
    removeGit crate scheme (before ++ '@' :: suffix) =
      some (variantPath gitStem (before ++ '@' :: suffix)) := by
  have hsplit : rsplitOnce '@' (before ++ '@' :: suffix) = some (before, suffix) :=
    rsplitOnce_append hsuffix
  rw [removeGit, variantPath, hsplit]
  dsimp only
  split_ifs with hgit
  · obtain ⟨front, last, rfl, hslash, hname⟩ := hregular.reference _ _ hsplit hgit
    obtain ⟨hstem, hne⟩ := gitStem_of_isGitName hname
    have hfive := hname.length
    have hchopped : (front ++ '/' :: last).take ((front ++ '/' :: last).length - 4) =
        front ++ '/' :: gitStem last := by
      have hcut : (front ++ '/' :: last).length - 4 =
          front.length + (1 + (last.length - 4)) := by
        rw [List.length_append, List.length_cons]
        omega
      rw [hcut, List.take_length_add_append, Nat.add_comm 1, List.take_succ_cons, hstem]
    rw [chopped_of_hasGitExtension hgit, hchopped, mapLast_append _ hslash]
    have hset : crate.ParsedPath scheme (front ++ '/' :: (gitStem last ++ '@' :: suffix)) := by
      apply parsedPath_reference hslash _ hne
      · simpa using hparsed
      · rw [hstem]
        exact fun c hc => List.mem_of_mem_take hc
    have hpath : crate.setPath scheme (front ++ '/' :: gitStem last ++ '@' :: suffix) =
        front ++ '/' :: gitStem last ++ '@' :: suffix := by
      apply hlawful.setPath_parsed
      simpa using hset
    exact congrArg some hpath
  · have hslash : '/' ∈ before := by
      have hrooted := hparsed.rooted
      cases before with
      | nil => cases hrooted
      | cons c before =>
          cases hrooted
          exact List.mem_cons_self
    obtain ⟨front, last, rfl, hlast, _⟩ := rsplitOnce_of_mem hslash
    have hname : ¬ IsGitName last := fun hname => hgit (hasGitExtension_of_isGitName hlast hname)
    rw [mapLast_append _ hlast, gitStem_of_not hname]

/-- The extension at the end of the path is removed. -/
theorem removeGit_last (hlawful : crate.Lawful) {front last : Text} (hlast : '/' ∉ last)
    (hat : '@' ∉ front ++ '/' :: last) (hparsed : crate.ParsedPath scheme (front ++ '/' :: last))
    (hliteral : Literal (crate.plain scheme) (front ++ '/' :: last))
    (hregular : Regular scheme (front ++ '/' :: last))
    (hsome : (removeGit crate scheme (front ++ '/' :: last)).isSome = true) :
    removeGit crate scheme (front ++ '/' :: last) =
      some (variantPath gitStem (front ++ '/' :: last)) := by
  have hvariant : variantPath gitStem (front ++ '/' :: last) = front ++ '/' :: gitStem last := by
    rw [variantPath, rsplitOnce_eq_none_iff.mpr hat]
    exact mapLast_append _ hlast
  rw [removeGit_isSome_iff (Or.inr hparsed), or_iff_right hat] at hsome
  rw [hvariant, removeGit, rsplitOnce_eq_none_iff.mpr hat]
  dsimp only
  split_ifs with hgit
  · have hne : last ≠ [] := by
      rintro rfl
      exact hsome ⟨by simp, hgit⟩
    have hmem : last ∈ ((front ++ '/' :: last).drop 1).splitOn '/' := by
      rw [segments_append, List.splitOn_eq_singleton hlast]
      simp
    have hdot : last ≠ ['.'] := by
      rintro rfl
      exact hparsed.noDots _ hmem (by decide)
    have hname := isGitName_of_hasGitExtension hlast hne hdot hgit
    obtain ⟨hstem, _⟩ := gitStem_of_isGitName hname
    obtain ⟨hfront, hpercent, hordinary⟩ := hregular.extension hat front last rfl hlast hname
    obtain ⟨segments, hsegments, hgetLast⟩ :=
      pathSegments_of_last hparsed.rooted rfl hlast
    have hchopped : chopped last = some (gitStem last) := by
      have hfive := hname.length
      rw [chopped, if_neg (by omega), hstem]
    have hsubset : ∀ c ∈ gitStem last, c ∈ last := by
      rw [hstem]
      exact fun c hc => List.mem_of_mem_take hc
    have hencode : encodeSegment (crate.plain scheme) (gitStem last) = gitStem last := by
      apply encodeSegment_literal
      · intro c hc
        exact hliteral c (List.mem_append_right _ (List.mem_cons_of_mem _ (hsubset c hc)))
      · exact fun hc => hlast (hsubset _ hc)
      · exact fun hc => hpercent (hsubset _ hc)
    rw [hsegments, Option.bind_eq_bind, Option.bind_some, hgetLast, Option.bind_eq_bind,
      Option.bind_some, hchopped, pop_append hparsed.rooted hlast]
    change some (crate.push scheme (if front = [] then ['/'] else front) (gitStem last)) = _
    have hpush : crate.push scheme (if front = [] then ['/'] else front) (gitStem last) =
        front ++ '/' :: gitStem last := by
      by_cases hnil : front = []
      · subst hnil
        rw [if_pos rfl, hlawful.push_ordinary _ _ _ rfl hordinary, if_pos rfl, hencode]
        rfl
      · have hrooted : front.head? = some '/' := by
          have hrooted := hparsed.rooted
          rwa [List.head?_append_of_ne_nil _ hnil] at hrooted
        rw [if_neg hnil, hlawful.push_ordinary _ _ _ hrooted hordinary, if_neg hfront, hencode]
        simp
    rw [hpush]
  · have hname : ¬ IsGitName last := fun hname => hgit (hasGitExtension_of_isGitName hlast hname)
    rw [gitStem_of_not hname]

theorem mem_gitStem {c : Char} {segment : Text} (hc : c ∈ gitStem segment) : c ∈ segment := by
  by_cases hname : IsGitName segment
  · rw [(gitStem_of_isGitName hname).1] at hc
    exact List.mem_of_mem_take hc
  · rwa [gitStem_of_not hname] at hc

theorem mem_mapLast {c : Char} {text : Text} (hc : c ∈ mapLast gitStem text) : c ∈ text := by
  by_cases hslash : '/' ∈ text
  · obtain ⟨front, last, rfl, hlast, _⟩ := rsplitOnce_of_mem hslash
    rw [mapLast_append _ hlast, List.mem_append, List.mem_cons] at hc
    rw [List.mem_append, List.mem_cons]
    exact hc.imp_right (Or.imp_right mem_gitStem)
  · rw [mapLast, rsplitOnce_eq_none_iff.mpr hslash] at hc
    exact mem_gitStem hc

theorem mem_variantPath {c : Char} {path : Text} (hc : c ∈ variantPath gitStem path) :
    c ∈ path := by
  by_cases hat : '@' ∈ path
  · obtain ⟨before, suffix, rfl, _, hsplit⟩ := rsplitOnce_of_mem hat
    rw [variantPath, hsplit, List.mem_append] at hc
    rw [List.mem_append]
    exact hc.imp_left mem_mapLast
  · rw [variantPath, rsplitOnce_eq_none_iff.mpr hat] at hc
    exact mem_mapLast hc

/-- The extension of a regular path is removed. -/
theorem removeGit_eq (hlawful : crate.Lawful) {path : Text}
    (hparsed : path = [] ∨ crate.ParsedPath scheme path)
    (hliteral : Literal (crate.plain scheme) path) (hregular : Regular scheme path)
    (hsome : (removeGit crate scheme path).isSome = true) :
    removeGit crate scheme path = some (variantPath gitStem path) := by
  rcases hparsed with rfl | hparsed
  · rfl
  by_cases hat : '@' ∈ path
  · obtain ⟨before, suffix, rfl, hsuffix, _⟩ := rsplitOnce_of_mem hat
    exact removeGit_reference hlawful hsuffix hparsed hregular
  · have hslash : '/' ∈ path := List.mem_of_mem_head? hparsed.rooted
    obtain ⟨front, last, rfl, hlast, _⟩ := rsplitOnce_of_mem hslash
    exact removeGit_last hlawful hlast hat hparsed hliteral hregular hsome

end Removing

/-! ## Equal canonical URLs -/

/-- Paths are ASCII. -/
def UrlCrate.Ascii (crate : UrlCrate) : Prop :=
  ∀ scheme c, crate.plain scheme c = true → c.toNat < 128

/-- The decoded segments of the path, without a slash at its end and without the extension. -/
def variantSegments (stem : Text → Text) (url : Url) : Option (List Text) :=
  decodedSegments (variantPath stem (popIfEmpty url.path))

theorem variantSegments_ne (stem : Text → Text) (url : Url) :
    variantSegments stem url ≠ some [] := by
  rw [variantSegments, decodedSegments]
  intro heq
  obtain ⟨segments, hsegments, hnil⟩ := Option.map_eq_some_iff.mp heq
  unfold pathSegments at hsegments
  split at hsegments
  · cases hsegments
    exact List.splitOn_ne_nil _ _ (List.map_eq_nil_iff.mp hnil)
  · cases hsegments

/-- The URLs whose canonical form this is about. -/
structure Comparable (crate : UrlCrate) (url : Url) : Prop where
  base : url.cannotBeABase = false
  parsed : crate.Parsed url
  host : url.host ≠ some githubHost
  regular : Regular url.scheme (popIfEmpty url.path)
  made : (CanonicalUrl.new crate url).isSome = true

/-- The canonical form of a URL. -/
theorem new_eq {crate : UrlCrate} {url : Url} (hlawful : crate.Lawful) (hascii : crate.Ascii)
    (hurl : Comparable crate url) :
    CanonicalUrl.new crate url = some { url with
      username := []
      password := none
      path := pathOf (crate.plain url.scheme) (variantSegments gitStem url) } := by
  have hpath := hurl.parsed hurl.base
  have hrooted : Rooted url.path := hpath.imp id UrlCrate.ParsedPath.rooted
  have hparsed := (popIfEmpty_spec hpath).1
  have hrooted' : Rooted (popIfEmpty url.path) := hparsed.imp id UrlCrate.ParsedPath.rooted
  have hliteral : Literal (crate.plain url.scheme) (popIfEmpty url.path) := by
    intro c hc
    rcases hparsed with hnil | hparsed
    · rw [hnil] at hc
      cases hc
    · exact ⟨hparsed.plain c hc, hascii _ c (hparsed.plain c hc)⟩
  have hprepared : preparedPath crate url = popIfEmpty url.path := by
    simp only [preparedPath, if_neg hurl.host, stripped_eq hrooted]
  have hmade := hurl.made
  rw [CanonicalUrl.new, hurl.base, if_neg Bool.false_ne_true, hprepared] at hmade ⊢
  have hsome : (removeGit crate url.scheme (popIfEmpty url.path)).isSome = true := by
    cases hremove : removeGit crate url.scheme (popIfEmpty url.path) with
    | none =>
        rw [hremove] at hmade
        cases hmade
    | some path => rfl
  have hremove := removeGit_eq hlawful hparsed hliteral hurl.regular hsome
  have hvariant : Literal (crate.plain url.scheme) (variantPath gitStem (popIfEmpty url.path)) :=
    fun c hc => hliteral c (mem_variantPath hc)
  have hdecode := decodePath_eq hlawful (rooted_of_removeGit hlawful hrooted' hremove) hvariant
    hurl.regular.pushable
  rw [hremove, Option.bind_eq_bind, Option.bind_some, hdecode]
  rfl

/-- Two canonical URLs are equal iff the other components and the decoded segments of the paths
without their extensions are. -/
theorem new_eq_iff (crate : UrlCrate) (hlawful : crate.Lawful) (hascii : crate.Ascii)
    (left right : Url) (hleft : Comparable crate left) (hright : Comparable crate right) :
    CanonicalUrl.new crate left = CanonicalUrl.new crate right ↔
      left.scheme = right.scheme ∧ left.host = right.host ∧ left.port = right.port ∧
        left.query = right.query ∧ left.fragment = right.fragment ∧
        variantSegments gitStem left = variantSegments gitStem right := by
  have hinj : left.scheme = right.scheme →
      (pathOf (crate.plain left.scheme) (variantSegments gitStem left) =
        pathOf (crate.plain right.scheme) (variantSegments gitStem right) ↔
          variantSegments gitStem left = variantSegments gitStem right) := by
    intro hscheme
    rw [hscheme]
    exact pathOf_inj (variantSegments_ne _ _) (variantSegments_ne _ _)
  rw [new_eq hlawful hascii hleft, new_eq hlawful hascii hright, Option.some.injEq, Url.mk.injEq,
    hleft.base, hright.base]
  constructor
  · rintro ⟨hscheme, -, -, hhost, hport, hpath, -, hquery, hfragment⟩
    exact ⟨hscheme, hhost, hport, hquery, hfragment, (hinj hscheme).mp hpath⟩
  · rintro ⟨hscheme, hhost, hport, hquery, hfragment, hpath⟩
    exact ⟨hscheme, rfl, rfl, hhost, hport, (hinj hscheme).mpr hpath, rfl, hquery, hfragment⟩

/-! ## Two repositories -/

theorem plainCrate_ascii : plainCrate.Ascii := by
  intro _ c hc
  simp only [plainCrate, printable, Bool.and_eq_true, decide_eq_true_eq] at hc
  omega

theorem parsedPath_segment {last : Text} (hslash : '/' ∉ last)
    (hprintable : ∀ c ∈ last, printable c = true) (hdots : last.map Char.toLower ∉ dotSegments) :
    plainCrate.ParsedPath "git+https".toList ('/' :: last) := by
  constructor
  case rooted => rfl
  case plain =>
    intro c hc
    rcases List.mem_cons.mp hc with rfl | hc
    · exact plainCrate_lawful.plain_slash _
    · exact hprintable c hc
  case noDots =>
    intro segment hsegment
    rw [List.drop_one, List.tail_cons, List.splitOn_eq_singleton hslash,
      List.mem_singleton] at hsegment
    rwa [hsegment]
  case file => exact fun h => absurd h (by decide)
  case drive => exact fun h => absurd h (by decide)

/-- A path of one segment is a regular one. -/
theorem comparable_repository (path : String) (last : Text) (hpath : path.toList = '/' :: last)
    (hlast : last.all fun c => printable c && !decide (c ∈ ['/', '@', '%', '\t', '\n', '\r']))
    (hdots : last.map Char.toLower ∉ dotSegments)
    (hstem : gitStem last ≠ ['.'] ∧ gitStem last ≠ ['.', '.'])
    (hmade : (CanonicalUrl.new plainCrate (repository path)).isSome = true) :
    Comparable plainCrate (repository path) := by
  have hfree : ∀ c ∈ last, printable c = true ∧ c ∉ ['/', '@', '%', '\t', '\n', '\r'] := by
    intro c hc
    simpa using List.all_eq_true.mp hlast c hc
  have hslash : '/' ∉ last := fun hc => (hfree _ hc).2 (by decide)
  have hat : '@' ∉ '/' :: last := by
    rw [List.mem_cons, not_or]
    exact ⟨by decide, fun hc => (hfree _ hc).2 (by decide)⟩
  have hpercent : '%' ∉ '/' :: last := by
    rw [List.mem_cons, not_or]
    exact ⟨by decide, fun hc => (hfree _ hc).2 (by decide)⟩
  have hpop : popIfEmpty ('/' :: last) = '/' :: last := by
    rw [popIfEmpty, List.drop_one, List.tail_cons, if_neg]
    exact fun hend => hslash (List.mem_of_getLast? hend)
  have hparsed := parsedPath_segment hslash (fun c hc => (hfree c hc).1) hdots
  constructor
  case base => rfl
  case parsed =>
    intro _
    right
    change plainCrate.ParsedPath "git+https".toList path.toList
    rwa [hpath]
  case host =>
    intro hhost
    have hhost : some "example.com".toList = some githubHost := hhost
    exact absurd hhost (by decide)
  case made => exact hmade
  case regular =>
    change Regular "git+https".toList (popIfEmpty path.toList)
    rw [hpath, hpop]
    constructor
    case reference =>
      intro before suffix hsplit
      rw [rsplitOnce_eq_none_iff.mpr hat] at hsplit
      cases hsplit
    case extension =>
      intro _ front other heq hother _
      have hsame : rsplitOnce '/' ([] ++ '/' :: last) = some (front, other) := by
        rw [List.nil_append, heq]
        exact rsplitOnce_append hother
      rw [rsplitOnce_append hslash] at hsame
      cases hsame
      refine ⟨by simp, fun hc => hpercent (List.mem_cons_of_mem _ hc), ?_⟩
      constructor
      case characters =>
        intro c hc hmem
        apply (hfree c (mem_gitStem hmem)).2
        exact List.mem_append_right ['/', '@', '%'] hc
      case noDots => exact hstem
      case drive => exact fun h => absurd h (by decide)
    case pushable => exact fun hc => absurd (mem_variantPath hc) hpercent

theorem new_eq_iff_repository :
    CanonicalUrl.new plainCrate (repository "/a.git") =
        CanonicalUrl.new plainCrate (repository "/a") ↔
      (repository "/a.git").scheme = (repository "/a").scheme ∧
        (repository "/a.git").host = (repository "/a").host ∧
        (repository "/a.git").port = (repository "/a").port ∧
        (repository "/a.git").query = (repository "/a").query ∧
        (repository "/a.git").fragment = (repository "/a").fragment ∧
        variantSegments gitStem (repository "/a.git") =
          variantSegments gitStem (repository "/a") :=
  new_eq_iff plainCrate plainCrate_lawful plainCrate_ascii _ _
    (comparable_repository _ "a.git".toList rfl (by decide +kernel) (by decide +kernel)
      (by decide +kernel) (by decide +kernel))
    (comparable_repository _ "a".toList rfl (by decide +kernel) (by decide +kernel)
      (by decide +kernel) (by decide +kernel))

/-- Without `.git` in lower case only. -/
def literalStem (segment : Text) : Text :=
  if ".git".toList <:+ segment then segment.take (segment.length - 4) else segment

/-- An extension in upper case is removed as well. -/
theorem not_new_eq_iff :
    CanonicalUrl.new plainCrate (repository "/a.GIT") =
        CanonicalUrl.new plainCrate (repository "/a") ∧
      (CanonicalUrl.new plainCrate (repository "/a")).isSome = true ∧
      variantSegments literalStem (repository "/a.GIT") ≠
        variantSegments literalStem (repository "/a") := by
  decide +kernel

end Uv.CacheKey
