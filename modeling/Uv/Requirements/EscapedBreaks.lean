import Uv.Requirements.AllEntries

/-!
# Escaped line breaks

A line break after a backslash is a blank where the scanner skips blanks: before an entry,
after the text of a requirement and after a hash.  Everywhere else it is a part of the text
that is handed on.
-/

set_option linter.unusedSectionVars false

namespace Uv.Requirements

open Uv.Core Uv.Pep508
open Uv.Pep440.VersionSpecifier (isWhitespace)

variable {E Requirement Url Specifier : Type} {post : Text}

/-! ## Blanks -/

/-- Blanks are skipped together with the blanks after them. -/
theorem eatWrappableWhitespace_append {blanks tail : Text}
    (hblanks : eatWrappableWhitespace blanks = []) (htail : tail.head? ≠ some '\n') :
    eatWrappableWhitespace (blanks ++ tail) = eatWrappableWhitespace tail := by
  fun_induction eatWrappableWhitespace blanks with
  | case1 rest ih => exact ih hblanks
  | case2 rest ih => exact ih hblanks
  | case3 rest ih => exact ih hblanks
  | case4 rest ih => exact ih hblanks
  | case5 rest hne ih =>
      rw [List.cons_append, List.cons_append, eatWrappableWhitespace]
      · exact ih hblanks
      · intro other heq
        cases rest with
        | nil =>
            rw [List.nil_append] at heq
            exact htail (by rw [heq]; rfl)
        | cons c rest => exact hne rest (by rw [(List.cons.inj heq).1])
  | case6 s => rw [hblanks, List.nil_append]

/-- A line break and the blank that stands for it, before the rest of the text. -/
structure Break (post broken blank : Text) : Prop where
  broken : broken = '\\' :: '\n' :: post ∨ broken = '\\' :: '\r' :: '\n' :: post
  blank : blank = ' ' :: post

theorem Break.eatWrappableWhitespace_eq {broken blank blanks : Text}
    (hbreak : Break post broken blank) (hblanks : eatWrappableWhitespace blanks = []) :
    eatWrappableWhitespace (blanks ++ broken) = eatWrappableWhitespace post ∧
      eatWrappableWhitespace (blanks ++ blank) = eatWrappableWhitespace post := by
  obtain ⟨hbroken, rfl⟩ := hbreak
  constructor
  · rcases hbroken with rfl | rfl
    · exact eatWrappableWhitespace_append hblanks (by simp)
    · exact eatWrappableWhitespace_append hblanks (by simp)
  · exact eatWrappableWhitespace_append hblanks (by simp)

theorem Break.length {broken blank : Text} (hbreak : Break post broken blank) :
    post.length ≤ broken.length ∧ post.length ≤ blank.length := by
  obtain ⟨hbroken, rfl⟩ := hbreak
  rcases hbroken with rfl | rfl
  · simp only [List.length_cons]
    omega
  · simp only [List.length_cons]
    omega

theorem skipTrivia_congr {s s' : Text}
    (hblank : eatWrappableWhitespace s = eatWrappableWhitespace s') :
    (skipTrivia s : Except (EntryError E) Text) = skipTrivia s' := by
  cases hterminal : (eatWrappableWhitespace s).head?.any isTerminal with
  | false => rw [skipTrivia_of_not hterminal, skipTrivia_of_not (hblank ▸ hterminal), hblank]
  | true =>
      rcases eatTrailingLine_of_terminal (E := E) hterminal with ⟨comment, hcomment, _⟩ |
        ⟨line, hline, _⟩
      · exact (skipTrivia_comment hcomment).trans (skipTrivia_comment (hblank ▸ hcomment)).symm
      · exact (skipTrivia_line hline).trans (skipTrivia_line (hblank ▸ hline)).symm

theorem eatLineEnd_blanks {blanks tail : Text} (hne : blanks ≠ [])
    (hblanks : eatWrappableWhitespace blanks = []) : eatLineEnd (blanks ++ tail) = none := by
  cases blanks with
  | nil => exact (hne rfl).elim
  | cons c rest =>
      have hlineFeed : c ≠ '\n' := by
        rintro rfl
        simp [eatWrappableWhitespace] at hblanks
      have hreturn : c ≠ '\r' := by
        rintro rfl
        simp [eatWrappableWhitespace] at hblanks
      exact eatLineEnd_cons_none hlineFeed hreturn _

/-- At blanks, the end of a requirement depends on what follows them. -/
theorem requirementLoop_blanks {blanks tail : Text} (taken : Text) (hne : blanks ≠ [])
    (hblanks : eatWrappableWhitespace blanks = [])
    (hblank : eatWrappableWhitespace (blanks ++ tail) = eatWrappableWhitespace post)
    (hlength : post.length ≤ tail.length)
    (hend : "--".toList <+: eatWrappableWhitespace post ∨
      (eatWrappableWhitespace post).head? = some '#') :
    requirementLoop taken (blanks ++ tail) =
      if "--".toList <+: eatWrappableWhitespace post then
        (taken, true, eatWrappableWhitespace post)
      else (taken, false, eatComment (eatWrappableWhitespace post).tail) := by
  have hless : (eatWrappableWhitespace post).length < (blanks ++ tail).length := by
    have hle := length_eatWrappableWhitespace post
    have hpos := List.length_pos_iff.mpr hne
    rw [List.length_append]
    omega
  rw [requirementLoop.eq_def, eatLineEnd_blanks hne hblanks, hblank]
  dsimp only
  rw [if_pos hless]
  split_ifs with hdashes hcomment
  · rfl
  · rfl
  · exact (hend.elim hdashes hcomment).elim

/-! ## Where breaks are skipped -/

section Readers

variable (readers : Readers E Requirement Url Specifier)

/-- The reader of the text after `-e`, or of a requirement. -/
def requirementReader (editable : Bool) : EntryReader E Requirement Url Specifier :=
  if editable then readEditable readers else parseRequirementEntry readers

/-- The scanner skips blanks where the text ends, whatever follows: before an entry, after the
text of a requirement with hashes or a comment after it, or after a hash. -/
inductive Skipped (post : Text) : Text → Prop
  | blanks {blanks : Text} (hblanks : eatWrappableWhitespace blanks = []) : Skipped post blanks
  | trivia {text rest : Text}
      (hread : ∀ tail, (skipTrivia (text ++ tail) : Except (EntryError E) Text) =
        skipTrivia (rest ++ tail)) (hrest : Skipped post rest) : Skipped post text
  | entry {text rest : Text} {entry : Entry Requirement Url Specifier}
      (hread : ∀ tail, parseEntry readers (text ++ tail) = .ok (some (entry, rest ++ tail)))
      (hrest : Skipped post rest) : Skipped post text
  | error {text : Text} (hread : ∀ tail, ∃ e, parseEntry readers (text ++ tail) = .error e) :
      Skipped post text
  | requirement {text line taken blanks : Text} (editable : Bool)
      (hread : ∀ tail, parseEntry readers (text ++ tail) =
        (requirementReader readers editable (line ++ tail)).map some)
      (hloop : ∀ tail, requirementLoop [] (line ++ tail) = requirementLoop taken (blanks ++ tail))
      (hne : blanks ≠ []) (hblanks : eatWrappableWhitespace blanks = [])
      (hend : "--".toList <+: eatWrappableWhitespace post ∨
        (eatWrappableWhitespace post).head? = some '#') : Skipped post text
  | hash {text line requirement rest blanks : Text} {hashes : List Text} (editable : Bool)
      (hread : ∀ tail, parseEntry readers (text ++ tail) =
        (requirementReader readers editable (line ++ tail)).map some)
      (hloop : ∀ tail, requirementLoop [] (line ++ tail) = (requirement, true, rest ++ tail))
      (hhashes : ∀ tail, (parseHashes (rest ++ tail) : Except (EntryError E) _) =
        hashesLoop hashes (blanks ++ tail))
      (hblanks : eatWrappableWhitespace blanks = []) : Skipped post text

variable {readers}

theorem toOption_bind {α β : Type} {result result' : Except (EntryError E) α}
    {next next' : α → Except (EntryError E) β} (hresult : result.toOption = result'.toOption)
    (hnext : ∀ value, (next value).toOption = (next' value).toOption) :
    (result >>= next).toOption = (result' >>= next').toOption := by
  cases result with
  | error e =>
      cases result' with
      | error e' => rfl
      | ok value => cases hresult
  | ok value =>
      cases result' with
      | error e' => cases hresult
      | ok value' =>
          cases hresult
          exact hnext value

theorem requirementReader_congr {editable : Bool} {s s' : Text}
    (hread : (parseRequirementAndHashes readers editable s).toOption =
      (parseRequirementAndHashes readers editable s').toOption) :
    (requirementReader readers editable s).toOption =
      (requirementReader readers editable s').toOption := by
  cases editable with
  | false => exact toOption_bind hread fun _ => rfl
  | true => exact toOption_bind hread fun _ => rfl

/-- Where the texts of two requirements are the same, and what is read of their hashes. -/
theorem parseRequirementAndHashes_congr {editable : Bool} {s s' requirement rest rest' : Text}
    (hs : requirementLoop [] s = (requirement, true, rest))
    (hs' : requirementLoop [] s' = (requirement, true, rest'))
    (hhashes : (parseHashes rest : Except (EntryError E) _) = parseHashes rest') :
    (parseRequirementAndHashes readers editable s).toOption =
      (parseRequirementAndHashes readers editable s').toOption := by
  rw [parseRequirementAndHashes, parseRequirementAndHashes, hs, hs']
  simp only [hhashes, if_true]
  split_ifs
  · rfl
  · cases readers.parseRequirement requirement editable <;> rfl

/-- Where the first entries of two texts are the same, so are all entries. -/
theorem Entries.congr_toOption {s s' : Text}
    (hparse : (parseEntry readers s').toOption = (parseEntry readers s).toOption)
    {result : Except (EntryError E) (List (Entry Requirement Url Specifier))}
    (hresult : Entries readers s result) :
    ∃ result', Entries readers s' result' ∧ result'.toOption = result.toOption := by
  cases hs : parseEntry readers s with
  | ok read =>
      rw [hs] at hparse
      cases hs' : parseEntry readers s' with
      | error e =>
          rw [hs'] at hparse
          cases hparse
      | ok read' =>
          rw [hs'] at hparse
          cases hparse
          exact ⟨result, hresult.congr (hs'.trans hs.symm), rfl⟩
  | error e =>
      rw [hs] at hparse
      cases hs' : parseEntry readers s' with
      | error e' =>
          rw [hresult.unique (.fails hs)]
          exact ⟨_, .fails hs', rfl⟩
      | ok read =>
          rw [hs'] at hparse
          cases hparse

/-- The entries of a text with a skipped break are those with a blank in its place. -/
theorem Skipped.entries {broken blank text : Text} (hbreak : Break post broken blank)
    (hskipped : Skipped readers post text)
    {result : Except (EntryError E) (List (Entry Requirement Url Specifier))}
    (hresult : Entries readers (text ++ broken) result) :
    ∃ result', Entries readers (text ++ blank) result' ∧ result'.toOption = result.toOption := by
  induction hskipped generalizing result with
  | blanks hblanks =>
      obtain ⟨hbroken, hblank⟩ := hbreak.eatWrappableWhitespace_eq hblanks
      refine ⟨result, hresult.congr ?_, rfl⟩
      rw [parseEntry, parseEntry, skipTrivia_congr (hblank.trans hbroken.symm)]
  | @trivia text rest hread _ ih =>
      have hparse : ∀ tail, parseEntry readers (text ++ tail) =
          parseEntry readers (rest ++ tail) := by
        intro tail
        rw [parseEntry, parseEntry, hread]
      obtain ⟨result', hresult', hsame⟩ := ih (hresult.congr (hparse broken).symm)
      exact ⟨result', hresult'.congr (hparse blank), hsame⟩
  | @entry text rest entry hread _ ih =>
      cases hresult with
      | done hparse => cases hparse.symm.trans (hread broken)
      | fails hparse => cases hparse.symm.trans (hread broken)
      | next hparse hrest =>
          cases hparse.symm.trans (hread broken)
          obtain ⟨result', hresult', hsame⟩ := ih hrest
          refine ⟨_, .next (hread blank) hresult', ?_⟩
          rw [toOption_map, toOption_map, hsame]
  | error hread =>
      apply hresult.congr_toOption
      obtain ⟨e, hbroken⟩ := hread broken
      obtain ⟨e', hblank⟩ := hread blank
      rw [hbroken, hblank]
      rfl
  | @requirement text line taken blanks editable hread hloop hne hblanks hend =>
      obtain ⟨hbroken, hblank⟩ := hbreak.eatWrappableWhitespace_eq hblanks
      have hsame : requirementLoop [] (line ++ blank) = requirementLoop [] (line ++ broken) := by
        obtain ⟨hlength, hlength'⟩ := hbreak.length
        rw [hloop, hloop, requirementLoop_blanks taken hne hblanks hbroken hlength hend,
          requirementLoop_blanks taken hne hblanks hblank hlength' hend]
      apply hresult.congr_toOption
      rw [hread, hread, toOption_map, toOption_map]
      congr 1
      apply requirementReader_congr
      rw [parseRequirementAndHashes, parseRequirementAndHashes, hsame]
  | @hash text line requirement rest blanks hashes editable hread hloop hhashes hblanks =>
      obtain ⟨hbroken, hblank⟩ := hbreak.eatWrappableWhitespace_eq hblanks
      apply hresult.congr_toOption
      rw [hread, hread, toOption_map, toOption_map]
      congr 1
      apply requirementReader_congr
      apply parseRequirementAndHashes_congr (hloop blank) (hloop broken)
      rw [hhashes, hhashes, hashesLoop_eq, hashesLoop_eq, hbroken, hblank]

/-- A text that begins like a requirement is one. -/
theorem parseEntry_start {c : Char} (hstart : startsRequirement c = true) (line : Text) :
    parseEntry readers (c :: line) = (parseRequirementEntry readers (c :: line)).map some := by
  have hblank : eatWrappableWhitespace (c :: line) = c :: line :=
    eatWrappableWhitespace_cons (notMem_of_startsRequirement hstart (by decide)) line
  have hterminal : (eatWrappableWhitespace (c :: line)).head?.any isTerminal = false := by
    rw [hblank]
    have hc : c ∉ ['\n', '\r', '#'] := notMem_of_startsRequirement hstart (by decide)
    simpa [isTerminal, and_assoc] using hc
  have hoption : readOption (options readers) (c :: line) = none := by
    have hdash : '-' ≠ c := by
      rintro rfl
      cases hstart
    simp [readOption, options, eatIf, hdash]
  rw [parseEntry, skipTrivia_of_not hterminal, hblank]
  change readEntry readers (c :: line) = _
  rw [readEntry, hoption]
  exact if_pos hstart

theorem requirementLoop_word {word : Text}
    (hword : ∀ c ∈ word, c ∉ ['\n', '\r'] ∧ c ∉ [' ', '\t', '\\']) (taken tail : Text) :
    requirementLoop taken (word ++ tail) = requirementLoop (taken ++ word) tail := by
  induction word generalizing taken with
  | nil => rw [List.nil_append, List.append_nil]
  | cons c word ih =>
      rw [List.forall_mem_cons] at hword
      rw [List.cons_append, requirementLoop_cons hword.1.1 hword.1.2, ih hword.2,
        List.append_assoc, List.singleton_append]

/-- A break is skipped between a requirement of one word and its hashes or a comment. -/
theorem skipped_word {c : Char} {word blanks : Text} (hstart : startsRequirement c = true)
    (hword : ∀ c ∈ word, c ∉ ['\n', '\r'] ∧ c ∉ [' ', '\t', '\\']) (hne : blanks ≠ [])
    (hblanks : eatWrappableWhitespace blanks = [])
    (hend : "--".toList <+: eatWrappableWhitespace post ∨
      (eatWrappableWhitespace post).head? = some '#') :
    Skipped readers post (c :: (word ++ blanks)) := by
  have hread : ∀ tail, parseEntry readers (c :: (word ++ blanks) ++ tail) =
      (requirementReader readers false (c :: (word ++ blanks) ++ tail)).map some :=
    fun tail => parseEntry_start hstart _
  have hloop : ∀ tail, requirementLoop [] (c :: (word ++ blanks) ++ tail) =
      requirementLoop (c :: word) (blanks ++ tail) := by
    intro tail
    rw [List.cons_append, requirementLoop_start hstart, List.append_assoc,
      requirementLoop_word hword]
    rfl
  exact .requirement false hread hloop hne hblanks hend

end Readers

section Concrete

/-- Values are read as they are; blanks do not matter in requirements, and backslashes are no
part of them. -/
private def blankReaders : Readers Unit Text Text Text where
  unquote _ := none
  isFile _ := false
  parseRequirement text _ :=
    if text.isEmpty || text.contains '\\' then .error () else .ok (text.filter (· ≠ ' '))
  empty _ := ⟨(), rfl⟩
  intoEditable := .ok
  parseUrl := .ok
  parseSpecifier := .ok

end Concrete

end Uv.Requirements
