import Uv.Auth.Transport

/-!
# Canonical URLs

URLs that name the same thing are brought to one form before they are used as keys.  Of the
URL library, how a path is set and how a segment is pushed are parameters with the laws that
its documentation states; the other operations on paths are defined here.  A path is ASCII,
so positions in its bytes and characters are the same.

A slice out of range, a subtraction below zero and an `unwrap` of nothing are panics, here
none.
-/

namespace Uv.CacheKey

open Uv.Auth (Text Byte textBytes percentDecodeUtf8)

structure Url where
  scheme : Text
  /-- Empty if there is none. -/
  username : Text
  password : Option Text
  host : Option Text
  port : Option ℕ
  path : Text
  cannotBeABase : Bool
  query : Option Text
  fragment : Option Text
  deriving DecidableEq

/-! ## Paths of URLs -/

/-- The parts before and after the last occurrence of a character. -/
def rsplitOnce (c : Char) (text : Text) : Option (Text × Text) :=
  match text.reverse.dropWhile (· ≠ c) with
  | [] => none
  | _ :: before => some (before.reverse, (text.reverse.takeWhile (· ≠ c)).reverse)

/-- `path_segments`. -/
def pathSegments : Text → Option (List Text)
  | '/' :: rest => some (rest.splitOn '/')
  | _ => none

/-- Remove the last segment if it is empty and not the only one. -/
def popIfEmpty (path : Text) : Text :=
  if (path.drop 1).getLast? = some '/' then path.dropLast else path

/-- Remove the last segment; the only one is made empty. -/
def pop (path : Text) : Text :=
  path.take 1 ++ ((rsplitOnce '/' (path.drop 1)).map (·.1)).getD []

/-- What parsing takes for a segment of one dot or two. -/
def dotSegments : List Text :=
  [".", "%2e", "..", ".%2e", "%2e.", "%2e%2e"].map String.toList

/-- How paths are changed, by the scheme, and the characters of a path that stay as they
are. -/
structure UrlCrate where
  plain : Text → Char → Bool
  setPath : Text → Text → Text
  /-- `push`, and one round of `extend`. -/
  push : Text → Text → Text → Text

/-- A path that is the result of parsing. -/
structure UrlCrate.ParsedPath (crate : UrlCrate) (scheme path : Text) : Prop where
  rooted : path.head? = some '/'
  plain : ∀ c ∈ path, crate.plain scheme c = true
  noDots : ∀ segment ∈ (path.drop 1).splitOn '/', segment.map Char.toLower ∉ dotSegments
  file : scheme = "file".toList → ¬ ['/', '/'] <+: path
  drive : scheme = "file".toList → ∀ letter : Char, letter.isAlpha = true →
    ((path.drop 1).splitOn '/').head? ≠ some [letter, '|']

def hexDigitOf (n : ℕ) : Char := Char.ofNat (if n < 10 then 48 + n else 55 + n)

/-- A byte of a segment, encoded unless it is a character that stays; slashes and percent
signs do not. -/
def encodeByte (plain : Char → Bool) (byte : Byte) : Text :=
  let c := Char.ofNat byte.toNat
  if byte < 128 ∧ plain c = true ∧ c ≠ '/' ∧ c ≠ '%' then [c]
  else ['%', hexDigitOf (byte.toNat / 16), hexDigitOf (byte.toNat % 16)]

def encodeSegment (plain : Char → Bool) (segment : Text) : Text :=
  (textBytes segment).flatMap (encodeByte plain)

/-- A segment that is pushed as it is: parsing drops no character of it, and it is no dot
segment and no drive letter. -/
structure Ordinary (scheme segment : Text) : Prop where
  characters : ∀ c ∈ ['\t', '\n', '\r'], c ∉ segment
  noDots : segment ≠ ['.'] ∧ segment ≠ ['.', '.']
  drive : scheme = "file".toList → ∀ letter : Char, letter.isAlpha = true →
    segment ≠ [letter, '|']

/-- A path is empty or starts with a slash. -/
def Rooted (path : Text) : Prop :=
  path = [] ∨ path.head? = some '/'

/-- What the URL library says about its operations. -/
structure UrlCrate.Lawful (crate : UrlCrate) : Prop where
  plain_slash : ∀ scheme, crate.plain scheme '/' = true
  plain_toLower : ∀ scheme c, crate.plain scheme c = true → crate.plain scheme c.toLower = true
  setPath_parsed : ∀ scheme path, crate.ParsedPath scheme path →
    crate.setPath scheme path = path
  setPath_rooted : ∀ scheme path, Rooted (crate.setPath scheme path)
  setPath_nil : ∀ scheme, crate.setPath scheme [] = [] ∨ crate.setPath scheme [] = ['/']
  push_rooted : ∀ scheme path segment, path.head? = some '/' →
    (crate.push scheme path segment).head? = some '/'
  push_ordinary : ∀ scheme path segment, path.head? = some '/' → Ordinary scheme segment →
    crate.push scheme path segment =
      (if path = ['/'] then path else path ++ ['/']) ++
        encodeSegment (crate.plain scheme) segment

/-! ## Extensions of file names -/

/-- `Path::file_name`, of a path with a root; empty components and single dots do not
count. -/
def fileName (path : Text) : Option Text :=
  ((path.splitOn '/').filter fun part => part ≠ [] ∧ part ≠ ['.']).getLast?.filter
    (· ≠ ['.', '.'])

/-- `Path::extension`. -/
def extension (path : Text) : Option Text :=
  (fileName path).bind fun file =>
    match rsplitOnce '.' file with
    | some (before, after) => if before = [] then none else some after
    | none => none

def eqIgnoreAsciiCase (left right : Text) : Bool :=
  left.map Char.toLower == right.map Char.toLower

/-- The path needs chopping. -/
def hasGitExtension (path : Text) : Bool :=
  (extension path).any (eqIgnoreAsciiCase · "git".toList)

/-- The text without its last four characters. -/
def chopped (text : Text) : Option Text :=
  if text.length < 4 then none else some (text.take (text.length - 4))

/-! ## `CanonicalUrl::new` -/

section New

variable (crate : UrlCrate)

def githubHost : Text := "github.com".toList

/-- Remove a `.git` extension from the path. -/
def removeGit (scheme path : Text) : Option Text :=
  match rsplitOnce '@' path with
  | some (before, suffix) =>
      if hasGitExtension before then do
        let before ← chopped before
        return crate.setPath scheme (before ++ '@' :: suffix)
      else some path
  | none =>
      if hasGitExtension path then do
        let segments ← pathSegments path
        let last ← segments.getLast?
        let last ← chopped last
        return crate.push scheme (pop path) last
      else some path

def decodeSegment (segment : Text) : Text :=
  (percentDecodeUtf8 segment).getD segment

/-- Decode the segments of the path; pushing encodes them again. -/
def decodePath (scheme path : Text) : Option Text :=
  if '%' ∈ path then do
    let segments ← pathSegments path
    return (segments.map decodeSegment).foldl (crate.push scheme) (path.take 1)
  else some path

/-- The path after the trailing slash is stripped and GitHub's is in lower case; setting the
scheme to itself does nothing. -/
def preparedPath (url : Url) : Text :=
  let path := if url.path.getLast? = some '/' then popIfEmpty url.path else url.path
  if url.host = some githubHost then crate.setPath url.scheme (path.map Char.toLower) else path

def CanonicalUrl.new (url : Url) : Option Url :=
  -- Such a URL is not valid anyway.
  if url.cannotBeABase then some url
  else do
    let path ← removeGit crate url.scheme (preparedPath crate url)
    let path ← decodePath crate url.scheme path
    return { url with username := [], password := none, path := path }

def RepositoryUrl.new (url : Url) : Option Url := do
  let url ← CanonicalUrl.new crate url
  let path :=
    -- A reference at the end, like a branch, tag or commit.
    if "git+".toList <+: url.scheme then
      match rsplitOnce '@' url.path with
      | some (before, _) => crate.setPath url.scheme before
      | none => url.path
    else url.path
  return { url with path := path, query := none, fragment := none }

end New

/-! ## Splitting -/

theorem rsplitOnce_eq_none_iff {c : Char} {text : Text} :
    rsplitOnce c text = none ↔ c ∉ text := by
  unfold rsplitOnce
  split
  · rename_i hdrop
    rw [List.dropWhile_eq_nil_iff] at hdrop
    simp only [true_iff]
    intro hmem
    simpa using hdrop c (List.mem_reverse.mpr hmem)
  · rename_i d before hdrop
    simp only [reduceCtorEq, false_iff, not_not]
    have hd : ¬ (decide (d ≠ c)) = true := by
      have hhead := List.head?_dropWhile_not (· ≠ c) text.reverse
      rw [hdrop] at hhead
      simpa using hhead
    have hmem : d ∈ text.reverse := by
      have := List.dropWhile_suffix (l := text.reverse) (· ≠ c)
      rw [hdrop] at this
      exact this.subset List.mem_cons_self
    have heq : d = c := by simpa using hd
    rw [← heq]
    exact List.mem_reverse.mp hmem

theorem rsplitOnce_append {c : Char} {before after : Text} (hafter : c ∉ after) :
    rsplitOnce c (before ++ c :: after) = some (before, after) := by
  have hall : ∀ d ∈ after.reverse, decide (d ≠ c) = true := by
    intro d hd
    apply decide_eq_true
    rintro rfl
    exact hafter (List.mem_reverse.mp hd)
  have hsplit : (before ++ c :: after).reverse = after.reverse ++ c :: before.reverse := by simp
  have hdrop : (before ++ c :: after).reverse.dropWhile (· ≠ c) = c :: before.reverse := by
    rw [hsplit, List.dropWhile_append_of_pos hall, List.dropWhile_cons_of_neg (by simp)]
  have htake : (before ++ c :: after).reverse.takeWhile (· ≠ c) = after.reverse := by
    rw [hsplit, List.takeWhile_append_of_pos hall, List.takeWhile_cons_of_neg (by simp)]
    exact List.append_nil _
  rw [rsplitOnce, hdrop, htake]
  simp

/-- A text with a character comes apart at its last occurrence. -/
theorem rsplitOnce_of_mem {c : Char} {text : Text} (hmem : c ∈ text) :
    ∃ before after, text = before ++ c :: after ∧ c ∉ after ∧
      rsplitOnce c text = some (before, after) := by
  obtain ⟨after, before, hsplit, hafter⟩ := List.eq_append_cons_of_mem (List.mem_reverse.mpr hmem)
  have htext : text = before.reverse ++ c :: after.reverse := by
    rw [← List.reverse_reverse text, hsplit]
    simp
  have hafter' : c ∉ after.reverse := by simpa using hafter
  refine ⟨before.reverse, after.reverse, htext, hafter', ?_⟩
  rw [htext]
  exact rsplitOnce_append hafter'

/-! ## `.git` extensions -/

theorem fileName_append_slash (path : Text) : fileName (path ++ ['/']) = fileName path := by
  rw [fileName, fileName, List.splitOn_append_cons_self]
  simp

theorem hasGitExtension_append_slash (path : Text) :
    hasGitExtension (path ++ ['/']) = hasGitExtension path := by
  rw [hasGitExtension, hasGitExtension, extension, extension, fileName_append_slash]

/-- A name that ends with `.git`, in any case, after something. -/
def IsGitName (file : Text) : Prop :=
  ∃ stem git, stem ≠ [] ∧ file = stem ++ '.' :: git ∧ git.map Char.toLower = "git".toList

theorem hasGitExtension_iff {path : Text} :
    hasGitExtension path = true ↔ ∃ file, fileName path = some file ∧ IsGitName file := by
  rw [hasGitExtension, extension]
  cases fileName path with
  | none => simp
  | some file =>
      simp only [Option.bind_some, Option.some.injEq, exists_eq_left', IsGitName]
      by_cases hdot : '.' ∈ file
      · obtain ⟨before, after, rfl, hafter, hsplit⟩ := rsplitOnce_of_mem hdot
        rw [hsplit]
        constructor
        · intro hany
          by_cases hbefore : before = []
          · simp [hbefore] at hany
          · refine ⟨before, after, hbefore, rfl, ?_⟩
            simpa [hbefore, eqIgnoreAsciiCase] using hany
        · rintro ⟨stem, git, hstem, heq, hgit⟩
          have hnodot : '.' ∉ git := by
            intro hmem
            have := List.mem_map_of_mem (f := Char.toLower) hmem
            rw [hgit] at this
            exact absurd this (by decide)
          have hsame : rsplitOnce '.' (stem ++ '.' :: git) = some (stem, git) :=
            rsplitOnce_append hnodot
          rw [← heq, rsplitOnce_append hafter] at hsame
          cases hsame
          simp [hstem, eqIgnoreAsciiCase, hgit]
      · rw [rsplitOnce_eq_none_iff.mpr hdot]
        simp only [Option.any_none, Bool.false_eq_true, false_iff]
        rintro ⟨stem, git, _, rfl, _⟩
        simp at hdot

theorem IsGitName.length {file : Text} (hfile : IsGitName file) : 5 ≤ file.length := by
  obtain ⟨stem, git, hstem, rfl, hgit⟩ := hfile
  have hlength := congrArg List.length hgit
  have hpos := List.length_pos_iff.mpr hstem
  simp only [List.length_map, String.length_toList] at hlength
  have hthree : "git".length = 3 := by decide
  simp only [List.length_append, List.length_cons]
  omega

/-! ## Lower case -/

theorem toLower_eq_iff {c d : Char} (hd : d.isAlpha = false) : c.toLower = d ↔ c = d := by
  constructor
  · intro heq
    have halpha : c.isAlpha = false := by rw [← Char.isAlpha_toLower_eq_isAlpha, heq, hd]
    rw [← heq]
    apply (Char.toLower_eq_of_not_isUpper _).symm
    intro hupper
    simp [Char.isAlpha, hupper] at halpha
  · rintro rfl
    apply Char.toLower_eq_of_not_isUpper
    intro hupper
    simp [Char.isAlpha, hupper] at hd

theorem map_toLower_eq_singleton {text : Text} {d : Char} (hd : d.isAlpha = false) :
    text.map Char.toLower = [d] ↔ text = [d] := by
  constructor
  · intro heq
    obtain ⟨c, rest, rfl, hc, hrest⟩ := List.map_eq_cons_iff.mp heq
    rw [List.map_eq_nil_iff.mp hrest, (toLower_eq_iff hd).mp hc]
  · rintro rfl
    rw [List.map_singleton, (toLower_eq_iff hd).mpr rfl]

theorem map_toLower_map_toLower (text : Text) :
    (text.map Char.toLower).map Char.toLower = text.map Char.toLower := by
  rw [List.map_map]
  congr 1
  funext c
  exact Char.toLower_toLower_eq_toLower c

theorem isGitName_map_toLower {file : Text} :
    IsGitName (file.map Char.toLower) ↔ IsGitName file := by
  constructor
  · rintro ⟨stem, git, hstem, heq, hgit⟩
    obtain ⟨stem', rest, rfl, rfl, hrest⟩ := List.map_eq_append_iff.mp heq
    obtain ⟨dot, git', rfl, hdot, rfl⟩ := List.map_eq_cons_iff.mp hrest
    rw [(toLower_eq_iff (by decide)).mp hdot]
    refine ⟨stem', git', ?_, rfl, ?_⟩
    · rintro rfl
      exact hstem rfl
    · rwa [map_toLower_map_toLower] at hgit
  · rintro ⟨stem, git, hstem, rfl, hgit⟩
    refine ⟨stem.map Char.toLower, git.map Char.toLower, by simpa using hstem, ?_, ?_⟩
    · rw [List.map_append, List.map_cons, (toLower_eq_iff (by decide)).mpr rfl]
    · rwa [map_toLower_map_toLower]

theorem splitOn_map_toLower (path : Text) :
    (path.map Char.toLower).splitOn '/' = (path.splitOn '/').map (List.map Char.toLower) := by
  induction path with
  | nil => rfl
  | cons c rest ih =>
      rw [List.map_cons, List.splitOn_cons_eq_if_modifyHead, List.splitOn_cons_eq_if_modifyHead, ih]
      by_cases hc : c = '/'
      · have hlower : c.toLower = '/' := (toLower_eq_iff (by decide)).mpr hc
        simp [hc]
      · have hlower : c.toLower ≠ '/' := mt (toLower_eq_iff (by decide)).mp hc
        obtain ⟨first, others, heq⟩ := List.exists_cons_of_ne_nil (List.splitOn_ne_nil '/' rest)
        simp [hc, hlower, heq]

theorem fileName_map_toLower (path : Text) :
    fileName (path.map Char.toLower) = (fileName path).map (List.map Char.toLower) := by
  have hpart : ∀ part : Text, (part.map Char.toLower ≠ [] ∧ part.map Char.toLower ≠ ['.']) ↔
      (part ≠ [] ∧ part ≠ ['.']) := by
    intro part
    rw [Ne, Ne, List.map_eq_nil_iff, map_toLower_eq_singleton (by decide)]
  have hdots : ∀ part : Text, part.map Char.toLower = ['.', '.'] ↔ part = ['.', '.'] := by
    intro part
    constructor
    · intro heq
      obtain ⟨c, rest, rfl, hc, hrest⟩ := List.map_eq_cons_iff.mp heq
      rw [(map_toLower_eq_singleton (by decide)).mp hrest, (toLower_eq_iff (by decide)).mp hc]
    · rintro rfl
      rfl
  have hfilter : ((path.map Char.toLower).splitOn '/').filter
      (fun part => part ≠ [] ∧ part ≠ ['.']) =
      ((path.splitOn '/').filter fun part => part ≠ [] ∧ part ≠ ['.']).map
        (List.map Char.toLower) := by
    rw [splitOn_map_toLower, List.filter_map]
    congr 1
    apply List.filter_congr
    intro part _
    exact decide_eq_decide.mpr (hpart part)
  rw [fileName, fileName, hfilter, List.getLast?_map]
  generalize ((path.splitOn '/').filter fun part => part ≠ [] ∧ part ≠ ['.']).getLast? = file
  cases file with
  | none => rfl
  | some file =>
      by_cases hfile : file = ['.', '.']
      · rw [hfile]
        rfl
      · have hlower := mt (hdots file).mp hfile
        simp [Option.filter, hfile, hlower]

theorem hasGitExtension_map_toLower (path : Text) :
    hasGitExtension (path.map Char.toLower) = hasGitExtension path := by
  rw [Bool.eq_iff_iff, hasGitExtension_iff, hasGitExtension_iff, fileName_map_toLower]
  cases fileName path with
  | none => simp
  | some file => simp [isGitName_map_toLower]

/-! ## The last segment -/

/-- A segment is a part of the path without a slash. -/
theorem sublist_of_mem_splitOn {path part : Text} (hpart : part ∈ path.splitOn '/') :
    part.Sublist path ∧ '/' ∉ part := by
  induction path generalizing part with
  | nil =>
      rw [List.splitOn_nil, List.mem_singleton] at hpart
      rw [hpart]
      exact ⟨.slnil, List.not_mem_nil⟩
  | cons c rest ih =>
      rw [List.splitOn_cons_eq_if_modifyHead] at hpart
      split_ifs at hpart with hslash
      · rcases List.mem_cons.mp hpart with rfl | hpart
        · exact ⟨List.nil_sublist _, List.not_mem_nil⟩
        · exact ⟨(ih hpart).1.cons c, (ih hpart).2⟩
      · obtain ⟨first, others, heq⟩ := List.exists_cons_of_ne_nil (List.splitOn_ne_nil '/' rest)
        rw [heq, List.modifyHead_cons] at hpart
        rcases List.mem_cons.mp hpart with rfl | hpart
        · obtain ⟨hsublist, hfirst⟩ := ih (heq ▸ List.mem_cons_self)
          refine ⟨hsublist.cons_cons c, ?_⟩
          rw [List.mem_cons, not_or]
          exact ⟨fun heq => hslash (beq_iff_eq.mpr heq.symm), hfirst⟩
        · obtain ⟨hsublist, hnoSlash⟩ := ih (heq ▸ List.mem_cons_of_mem _ hpart)
          exact ⟨hsublist.cons c, hnoSlash⟩

theorem length_le_of_mem_splitOn {path part : Text} (hpart : part ∈ path.splitOn '/') :
    part.length ≤ path.length :=
  (sublist_of_mem_splitOn hpart).1.length_le

/-- A path with a `.git` extension can be chopped. -/
theorem chopped_of_hasGitExtension {path : Text} (hgit : hasGitExtension path = true) :
    chopped path = some (path.take (path.length - 4)) := by
  obtain ⟨file, hfile, hname⟩ := hasGitExtension_iff.mp hgit
  have hlast := (Option.filter_eq_some_iff.mp hfile).1
  have hmem := List.mem_of_mem_filter (List.mem_of_getLast? hlast)
  have hlength := length_le_of_mem_splitOn hmem
  have hfive := hname.length
  rw [chopped, if_neg (by omega)]

theorem fileName_of_last {before last : Text} (hslash : '/' ∉ last) (hlast : last ≠ [])
    (hdot : last ≠ ['.']) :
    fileName (before ++ '/' :: last) = (some last).filter (· ≠ ['.', '.']) := by
  rw [fileName, List.splitOn_append_cons_self, List.splitOn_eq_singleton hslash,
    List.filter_append]
  simp [hlast, hdot]

theorem pathSegments_of_last {path before last : Text} (hrooted : path.head? = some '/')
    (hsplit : path = before ++ '/' :: last) (hslash : '/' ∉ last) :
    ∃ segments, pathSegments path = some segments ∧ segments.getLast? = some last := by
  cases path with
  | nil => cases hrooted
  | cons c rest =>
      cases hrooted
      refine ⟨rest.splitOn '/', rfl, ?_⟩
      cases before with
      | nil =>
          cases hsplit
          rw [List.splitOn_eq_singleton hslash]
          rfl
      | cons d before =>
          rw [List.cons_append, List.cons.injEq] at hsplit
          rw [hsplit.2, List.splitOn_append_cons_self, List.splitOn_eq_singleton hslash]
          simp

theorem getLast?_slash_iff {before last : Text} (hslash : '/' ∉ last) :
    (before ++ '/' :: last).getLast? = some '/' ↔ last = [] := by
  constructor
  · intro hend
    rw [List.getLast?_append_of_ne_nil _ (List.cons_ne_nil _ _), List.getLast?_cons] at hend
    have hend := Option.some.inj hend
    cases hlast : last.getLast? with
    | none => exact List.getLast?_eq_none_iff.mp hlast
    | some c =>
        rw [hlast, Option.getD_some] at hend
        exact absurd (List.mem_of_getLast? hlast) (hend ▸ hslash)
  · rintro rfl
    simp

/-! ## Where the canonical URL is made -/

variable {crate : UrlCrate}

theorem UrlCrate.ParsedPath.last_noDots {scheme path last : Text} {segments : List Text}
    (hparsed : crate.ParsedPath scheme path) (hsegments : pathSegments path = some segments)
    (hlast : segments.getLast? = some last) : last.map Char.toLower ∉ dotSegments := by
  apply hparsed.noDots
  cases path with
  | nil => cases hsegments
  | cons c rest =>
      cases hparsed.rooted
      cases hsegments
      exact List.mem_of_getLast? hlast

/-- Removing the extension panics iff there is no `@` and nothing after the last slash. -/
theorem removeGit_isSome_iff {scheme path : Text} (hpath : path = [] ∨
    crate.ParsedPath scheme path) :
    (removeGit crate scheme path).isSome = true ↔
      '@' ∈ path ∨ ¬ (path.getLast? = some '/' ∧ hasGitExtension path = true) := by
  unfold removeGit
  by_cases hat : '@' ∈ path
  · obtain ⟨before, after, _, _, hsplit⟩ := rsplitOnce_of_mem hat
    rw [hsplit]
    simp only [hat, true_or, iff_true]
    split_ifs with hgit
    · rw [chopped_of_hasGitExtension hgit]
      rfl
    · rfl
  · rw [rsplitOnce_eq_none_iff.mpr hat]
    simp only [hat, false_or]
    by_cases hgit : hasGitExtension path = true
    · simp only [hgit, if_true, and_true]
      rcases hpath with rfl | hparsed
      · exact absurd hgit (by decide)
      have hslash : '/' ∈ path := List.mem_of_mem_head? hparsed.rooted
      obtain ⟨before, last, hsplit, hnoSlash, -⟩ := rsplitOnce_of_mem hslash
      obtain ⟨segments, hsegments, hgetLast⟩ :=
        pathSegments_of_last hparsed.rooted hsplit hnoSlash
      rw [hsegments, Option.bind_eq_bind, Option.bind_some, hgetLast, Option.bind_eq_bind,
        Option.bind_some]
      have hend : path.getLast? = some '/' ↔ last = [] := by
        rw [hsplit, getLast?_slash_iff hnoSlash]
      rw [hend]
      by_cases hlast : last = []
      · subst hlast
        simp [chopped]
      · have hdot : last ≠ ['.'] := by
          rintro rfl
          exact hparsed.last_noDots hsegments hgetLast (by decide)
        obtain ⟨file, hfile, hname⟩ := hasGitExtension_iff.mp hgit
        rw [hsplit, fileName_of_last hnoSlash hlast hdot] at hfile
        have hsame := (Option.filter_eq_some_iff.mp hfile).1
        cases hsame
        have hfive := hname.length
        simp [hlast, chopped, show ¬ last.length < 4 by omega]
    · simp [hgit]

/-- What is left of a path without its trailing slash. -/
theorem stripped_cases {path : Text} (hrooted : Rooted path) :
    popIfEmpty path = path ∧ (path.getLast? = some '/' → path = ['/']) ∨
      ∃ front, path = front ++ ['/'] ∧ front.head? = some '/' ∧ popIfEmpty path = front := by
  by_cases hend : path.getLast? = some '/'
  · obtain ⟨front, rfl⟩ := List.getLast?_eq_some_iff.mp hend
    cases front with
    | nil => exact Or.inl ⟨rfl, fun _ => rfl⟩
    | cons c rest =>
        right
        refine ⟨c :: rest, rfl, ?_, ?_⟩
        · rcases hrooted with h | h
          · cases h
          · exact h
        · rw [popIfEmpty, if_pos (by simp)]
          exact List.dropLast_concat
  · left
    refine ⟨?_, fun h => absurd h hend⟩
    rw [popIfEmpty, if_neg]
    intro hdrop
    apply hend
    cases path with
    | nil => cases hdrop
    | cons c rest =>
        cases rest with
        | nil => cases hdrop
        | cons d rest => rwa [List.getLast?_cons_cons]

theorem UrlCrate.ParsedPath.dropSlash {scheme front : Text}
    (hparsed : crate.ParsedPath scheme (front ++ ['/'])) (hrooted : front.head? = some '/') :
    crate.ParsedPath scheme front := by
  have hdrop : (front ++ ['/']).drop 1 = front.drop 1 ++ ['/'] := by
    cases front with
    | nil => cases hrooted
    | cons c rest => rfl
  have hsegments : ((front ++ ['/']).drop 1).splitOn '/' =
      (front.drop 1).splitOn '/' ++ [[]] := by
    rw [hdrop, List.splitOn_append_cons_self, List.splitOn_nil]
  constructor
  case rooted => exact hrooted
  case plain => exact fun c hc => hparsed.plain c (List.mem_append_left _ hc)
  case noDots =>
    intro segment hsegment
    apply hparsed.noDots
    rw [hsegments]
    exact List.mem_append_left _ hsegment
  case file =>
    exact fun hfile hslashes => hparsed.file hfile (hslashes.trans (List.prefix_append _ _))
  case drive =>
    intro hfile letter halpha hhead
    apply hparsed.drive hfile letter halpha
    rw [hsegments, List.head?_append_of_ne_nil _ (List.splitOn_ne_nil _ _)]
    exact hhead

theorem UrlCrate.ParsedPath.toLower (hlawful : crate.Lawful) {scheme path : Text}
    (hparsed : crate.ParsedPath scheme path) :
    crate.ParsedPath scheme (path.map Char.toLower) := by
  have hsegments : ((path.map Char.toLower).drop 1).splitOn '/' =
      ((path.drop 1).splitOn '/').map (List.map Char.toLower) := by
    rw [← List.map_drop, splitOn_map_toLower]
  constructor
  case rooted =>
    rw [List.head?_map, hparsed.rooted]
    rfl
  case plain =>
    intro c hc
    obtain ⟨d, hd, rfl⟩ := List.mem_map.mp hc
    exact hlawful.plain_toLower scheme d (hparsed.plain d hd)
  case noDots =>
    intro segment hsegment
    rw [hsegments] at hsegment
    obtain ⟨original, horiginal, rfl⟩ := List.mem_map.mp hsegment
    rw [map_toLower_map_toLower]
    exact hparsed.noDots original horiginal
  case file =>
    rintro hfile ⟨rest, heq⟩
    apply hparsed.file hfile
    obtain ⟨front, back, rfl, hfront, -⟩ := List.map_eq_append_iff.mp heq.symm
    obtain ⟨c, tail, rfl, hc, htail⟩ := List.map_eq_cons_iff.mp hfront
    rw [(toLower_eq_iff (by decide)).mp hc, (map_toLower_eq_singleton (by decide)).mp htail]
    exact List.prefix_append _ _
  case drive =>
    intro hfile letter halpha hhead
    rw [hsegments, List.head?_map, Option.map_eq_some_iff] at hhead
    obtain ⟨original, hhead, heq⟩ := hhead
    obtain ⟨c, tail, rfl, rfl, htail⟩ := List.map_eq_cons_iff.mp heq
    rw [(map_toLower_eq_singleton (by decide)).mp htail] at hhead
    rw [Char.isAlpha_toLower_eq_isAlpha] at halpha
    exact hparsed.drive hfile c halpha hhead

/-- A URL as it is parsed. -/
def UrlCrate.Parsed (crate : UrlCrate) (url : Url) : Prop :=
  url.cannotBeABase = false → url.path = [] ∨ crate.ParsedPath url.scheme url.path

theorem parsedPath_root (hlawful : crate.Lawful) (scheme : Text) :
    crate.ParsedPath scheme ['/'] where
  rooted := rfl
  plain c hc := by
    rw [List.mem_singleton.mp hc]
    exact hlawful.plain_slash scheme
  noDots segment hsegment := by
    rw [List.mem_singleton.mp hsegment]
    decide
  file _ := by decide
  drive _ letter _ hhead := by cases hhead

theorem stripped_eq {path : Text} (hrooted : Rooted path) :
    (if path.getLast? = some '/' then popIfEmpty path else path) = popIfEmpty path := by
  split_ifs with hend
  · rfl
  · rcases stripped_cases hrooted with ⟨heq, -⟩ | ⟨front, rfl, -⟩
    · exact heq.symm
    · simp at hend

/-- The path without its trailing slash is a parsed one, with the `@` and the extension of
the path, and ends with a slash if that ends with two. -/
theorem popIfEmpty_spec {scheme path : Text}
    (hpath : path = [] ∨ crate.ParsedPath scheme path) :
    (popIfEmpty path = [] ∨ crate.ParsedPath scheme (popIfEmpty path)) ∧
      ('@' ∈ popIfEmpty path ↔ '@' ∈ path) ∧
      ((popIfEmpty path).getLast? = some '/' ∧ hasGitExtension (popIfEmpty path) = true ↔
        ['/', '/'] <:+ path ∧ hasGitExtension path = true) := by
  have hrooted : Rooted path := hpath.imp id UrlCrate.ParsedPath.rooted
  rcases stripped_cases hrooted with ⟨heq, hroot⟩ | ⟨front, rfl, hfront, heq⟩
  · rw [heq]
    refine ⟨hpath, Iff.rfl, ?_⟩
    apply iff_of_false
    · rintro ⟨hend, hgit⟩
      rw [hroot hend] at hgit
      exact absurd hgit (by decide)
    · rintro ⟨⟨before, rfl⟩, -⟩
      have hlength := congrArg List.length (hroot (by simp))
      simp at hlength
  · rw [heq]
    refine ⟨hpath.imp (by simp) fun h => h.dropSlash hfront, by simp, ?_⟩
    rw [hasGitExtension_append_slash]
    apply and_congr_left
    intro _
    constructor
    · intro hend
      obtain ⟨before, rfl⟩ := List.getLast?_eq_some_iff.mp hend
      exact ⟨before, by simp⟩
    · rintro ⟨before, heq⟩
      have hsame : before ++ ['/'] = front := by
        have hslash : before ++ ['/'] ++ ['/'] = front ++ ['/'] := by
          rw [← heq, List.append_assoc]
          rfl
        exact List.append_cancel_right hslash
      rw [← hsame]
      simp

/-- The same of the prepared path. -/
theorem preparedPath_spec (hlawful : crate.Lawful) {url : Url}
    (hpath : url.path = [] ∨ crate.ParsedPath url.scheme url.path) :
    (preparedPath crate url = [] ∨ crate.ParsedPath url.scheme (preparedPath crate url)) ∧
      ('@' ∈ preparedPath crate url ↔ '@' ∈ url.path) ∧
      ((preparedPath crate url).getLast? = some '/' ∧
          hasGitExtension (preparedPath crate url) = true ↔
        ['/', '/'] <:+ url.path ∧ hasGitExtension url.path = true) := by
  obtain ⟨hparsed, hat, hgit⟩ := popIfEmpty_spec hpath
  have hrooted : Rooted url.path := hpath.imp id UrlCrate.ParsedPath.rooted
  simp only [preparedPath, stripped_eq hrooted]
  split_ifs with hgithub
  · rcases hparsed with hnil | hparsed
    · rw [hnil] at hat hgit ⊢
      rcases hlawful.setPath_nil url.scheme with hset | hset
      · rw [List.map_nil, hset]
        exact ⟨Or.inl rfl, hat, hgit⟩
      · rw [List.map_nil, hset, ← hat, ← hgit]
        exact ⟨Or.inr (parsedPath_root hlawful url.scheme), by decide, by decide⟩
    · have hlower := hparsed.toLower hlawful
      rw [hlawful.setPath_parsed _ _ hlower]
      refine ⟨Or.inr hlower, ?_, ?_⟩
      · rw [← hat]
        constructor
        · intro hmem
          obtain ⟨c, hc, heq⟩ := List.mem_map.mp hmem
          rwa [(toLower_eq_iff (by decide)).mp heq] at hc
        · intro hmem
          exact List.mem_map.mpr ⟨'@', hmem, rfl⟩
      · rw [← hgit, hasGitExtension_map_toLower, List.getLast?_map]
        apply and_congr_left
        intro _
        rw [Option.map_eq_some_iff]
        constructor
        · rintro ⟨c, hc, heq⟩
          rwa [(toLower_eq_iff (by decide)).mp heq] at hc
        · intro hend
          exact ⟨'/', hend, rfl⟩
  · exact ⟨hparsed, hat, hgit⟩

theorem rooted_of_removeGit (hlawful : crate.Lawful) {scheme path result : Text}
    (hrooted : Rooted path) (hremove : removeGit crate scheme path = some result) :
    Rooted result := by
  unfold removeGit at hremove
  split at hremove
  · split_ifs at hremove
    · obtain ⟨before, _, heq⟩ := Option.bind_eq_some_iff.mp hremove
      cases heq
      exact hlawful.setPath_rooted _ _
    · cases hremove
      exact hrooted
  · split_ifs at hremove
    · obtain ⟨segments, hsegments, hremove⟩ := Option.bind_eq_some_iff.mp hremove
      obtain ⟨last, _, hremove⟩ := Option.bind_eq_some_iff.mp hremove
      obtain ⟨stem, _, heq⟩ := Option.bind_eq_some_iff.mp hremove
      cases heq
      right
      apply hlawful.push_rooted
      rcases hrooted with rfl | hhead
      · cases hsegments
      · cases path with
        | nil => cases hhead
        | cons c rest => exact hhead
    · cases hremove
      exact hrooted

/-- Decoding never panics: a path with a percent sign has segments. -/
theorem decodePath_isSome {scheme path : Text} (hrooted : Rooted path) :
    (decodePath crate scheme path).isSome = true := by
  unfold decodePath
  split_ifs with hpercent
  · rcases hrooted with rfl | hhead
    · cases hpercent
    · cases path with
      | nil => cases hhead
      | cons c rest =>
          cases hhead
          rfl
  · rfl

/-- The canonical URL and the repository URL are made exactly of a URL that is no base, has
an `@` in its path, does not end with two slashes or has no `.git` extension before
them. -/
theorem new_isSome_iff (crate : UrlCrate) (hlawful : crate.Lawful) (url : Url)
    (hparsed : crate.Parsed url) :
    ((CanonicalUrl.new crate url).isSome = true ∧
        (RepositoryUrl.new crate url).isSome = true) ↔
      url.cannotBeABase = true ∨ '@' ∈ url.path ∨
        ¬ (['/', '/'] <:+ url.path ∧ hasGitExtension url.path = true) := by
  have hrepository : (RepositoryUrl.new crate url).isSome =
      (CanonicalUrl.new crate url).isSome := by
    rw [RepositoryUrl.new]
    cases CanonicalUrl.new crate url <;> rfl
  rw [hrepository, and_self, CanonicalUrl.new]
  cases hbase : url.cannotBeABase with
  | true => simp
  | false =>
      simp only [Bool.false_eq_true, if_false, false_or]
      obtain ⟨hpath, hat, hgit⟩ := preparedPath_spec hlawful (hparsed hbase)
      rw [← hat, ← hgit, ← removeGit_isSome_iff hpath]
      cases hremove : removeGit crate url.scheme (preparedPath crate url) with
      | none => simp
      | some path =>
          have hrooted := rooted_of_removeGit hlawful (hpath.imp id UrlCrate.ParsedPath.rooted)
            hremove
          have hdecode : (decodePath crate url.scheme path).isSome = true :=
            decodePath_isSome hrooted
          obtain ⟨decoded, hdecoded⟩ := Option.isSome_iff_exists.mp hdecode
          simp [hdecoded]

/-! ## A repository -/

/-- Printable ASCII characters stay in a path, but quotation marks, brackets, question marks,
backslashes and the like. -/
def printable (c : Char) : Bool :=
  33 ≤ c.toNat && c.toNat ≤ 126 && c.toNat ∉ [34, 35, 60, 62, 63, 92, 94, 96, 123, 125]

theorem printable_toLower {c : Char} (hc : printable c = true) : printable c.toLower = true := by
  have hall : ∀ n < 127, printable (Char.ofNat n) = true →
      printable (Char.ofNat n).toLower = true := by decide +kernel
  have hlimit : c.toNat < 127 := by
    simp only [printable, Bool.and_eq_true, decide_eq_true_eq] at hc
    omega
  have hsame := hall c.toNat hlimit
  rw [Char.ofNat_toNat] at hsame
  exact hsame hc

/-- The operations on paths that are parsed already and on ordinary segments. -/
def plainCrate : UrlCrate where
  plain _ := printable
  setPath _ path := if path.head? = some '/' then path else '/' :: path
  push _ path segment :=
    (if path = ['/'] then path else path ++ ['/']) ++ encodeSegment printable segment

theorem plainCrate_lawful : plainCrate.Lawful where
  plain_slash _ := by
    change printable '/' = true
    decide
  plain_toLower _ _ := printable_toLower
  setPath_parsed _ path hparsed := if_pos hparsed.rooted
  setPath_rooted _ path := by
    right
    simp only [plainCrate]
    split_ifs with hrooted
    · exact hrooted
    · rfl
  setPath_nil _ := Or.inr rfl
  push_rooted _ path segment hrooted := by
    simp only [plainCrate]
    split_ifs with hroot
    · rw [hroot]
      rfl
    · cases path with
      | nil => cases hrooted
      | cons c rest => exact hrooted
  push_ordinary _ _ _ _ _ := rfl

def repository (path : String) : Url where
  scheme := "git+https".toList
  username := "user".toList
  password := none
  host := some "example.com".toList
  port := none
  path := path.toList
  cannotBeABase := false
  query := none
  fragment := none

theorem new_isSome_iff_repository :
    ((CanonicalUrl.new plainCrate (repository "/a.git")).isSome = true ∧
        (RepositoryUrl.new plainCrate (repository "/a.git")).isSome = true) ↔
      false = true ∨ '@' ∈ "/a.git".toList ∨
        ¬ (['/', '/'] <:+ "/a.git".toList ∧ hasGitExtension "/a.git".toList = true) := by
  apply new_isSome_iff plainCrate plainCrate_lawful (repository "/a.git")
  intro _
  right
  constructor
  case rooted => rfl
  case plain =>
    have hall : "/a.git".toList.all printable = true := by decide +kernel
    exact fun c hc => List.all_eq_true.mp hall c hc
  case noDots => decide +kernel
  case file => exact fun h => absurd h (by decide)
  case drive => exact fun h => absurd h (by decide)

/-- A repository with two slashes at the end. -/
theorem not_new_isSome :
    ¬ ((CanonicalUrl.new plainCrate (repository "/a.git//")).isSome = true ∧
      (RepositoryUrl.new plainCrate (repository "/a.git//")).isSome = true) := by
  decide +kernel

end Uv.CacheKey
