import Uv.Pep440.VersionBuilders
import Uv.Pep440.VersionSpecifier

/-!
# Displaying and parsing versions

The stages of the grammar take the displayed parts of a version off its text one
after the other.  Where numbers are within range and local segments read as
themselves, the captured groups read as the components that were displayed.
-/

namespace Uv.Pep440

open Uv.Core Grammar

/-! ## Numbers -/

theorem displayNat_eq (n : ℕ) :
    displayNat n = (Nat.toDigits 10 n).map fun char => Fin.ofNat 256 char.toNat := by
  rw [displayNat, ascii, Nat.toString_eq_repr, Nat.toList_repr]

theorem displayNat_ne_nil (n : ℕ) : displayNat n ≠ [] := by
  rw [displayNat_eq, ne_eq, List.map_eq_nil_iff]
  exact Nat.toDigits_ne_nil

private theorem byte_digit {char : Char} (hchar : char.isDigit = true) :
    (Fin.ofNat 256 char.toNat : Byte).val = char.toNat ∧ 48 ≤ char.toNat ∧
      char.toNat ≤ 57 := by
  obtain ⟨hlow, hhigh⟩ : 48 ≤ char.toNat ∧ char.toNat ≤ 57 :=
    Char.isDigit_iff_toNat.mp hchar
  have hval : char.toNat % 256 = char.toNat := by omega
  exact ⟨hval, hlow, hhigh⟩

theorem isAsciiDigit_displayNat {n : ℕ} {byte : Byte} (hbyte : byte ∈ displayNat n) :
    Byte.isAsciiDigit byte = true := by
  rw [displayNat_eq, List.mem_map] at hbyte
  obtain ⟨char, hchar, rfl⟩ := hbyte
  obtain ⟨hval, hlow, hhigh⟩ :=
    byte_digit (Nat.isDigit_of_mem_toDigits (by decide) (by decide) hchar)
  rw [Byte.isAsciiDigit, hval]
  simp [hlow, hhigh]

theorem decimal_displayNat (n : ℕ) : decimal (displayNat n) = n := by
  have hfold : ∀ (chars : List Char) (init : ℕ), (∀ char ∈ chars, char.isDigit = true) →
      (chars.map fun char => (Fin.ofNat 256 char.toNat : Byte)).foldl
          (fun n byte => n * 10 + (byte.val - 48)) init =
        Nat.ofDigitChars 10 chars init := by
    intro chars init hdigits
    induction chars generalizing init with
    | nil => rfl
    | cons char chars ih =>
        have hchar := (byte_digit (hdigits char (by simp))).1
        rw [List.map_cons, List.foldl_cons, hchar, Nat.ofDigitChars_cons,
          ih _ fun c hc => hdigits c (by simp [hc]), Nat.mul_comm]
        rfl
  rw [decimal, displayNat_eq, hfold]
  · exact Nat.ofDigitChars_ten_toDigits
  · exact fun char hchar => Nat.isDigit_of_mem_toDigits (by decide) (by decide) hchar

theorem number_displayNat {n : ℕ} (hn : n ≤ u64Max) : number (displayNat n) = some n := by
  rw [number, decimal_displayNat, if_pos hn]

/-- The text goes on with no digit. -/
def NoDigit (text : List Byte) : Prop :=
  ∀ byte rest, text = byte :: rest → Byte.isAsciiDigit byte = false

theorem noDigit_nil : NoDigit [] := by
  intro byte rest heq
  cases heq

theorem noDigit_cons {byte : Byte} (hbyte : Byte.isAsciiDigit byte = false)
    (rest : List Byte) : NoDigit (byte :: rest) := by
  intro byte' rest' heq
  cases heq
  exact hbyte

theorem takeWhile_displayNat (n : ℕ) {rest : List Byte} (hrest : NoDigit rest) :
    (displayNat n ++ rest).takeWhile Byte.isAsciiDigit = displayNat n ∧
      (displayNat n ++ rest).dropWhile Byte.isAsciiDigit = rest := by
  have hdigits : ∀ byte ∈ displayNat n, Byte.isAsciiDigit byte = true :=
    fun byte => isAsciiDigit_displayNat
  rw [List.takeWhile_append_of_pos hdigits, List.dropWhile_append_of_pos hdigits]
  cases rest with
  | nil => simp
  | cons byte rest =>
      have hbyte := hrest byte rest rfl
      simp [hbyte]

theorem displayNat_head (n : ℕ) (rest : List Byte) :
    ∃ byte tail, displayNat n ++ rest = byte :: tail ∧ Byte.isAsciiDigit byte = true := by
  cases htext : displayNat n with
  | nil => exact (displayNat_ne_nil n htext).elim
  | cons byte tail =>
      exact ⟨byte, tail ++ rest, rfl, isAsciiDigit_displayNat (n := n) (by simp [htext])⟩

theorem skipSeparator_displayNat (n : ℕ) (rest : List Byte) :
    skipSeparator (displayNat n ++ rest) = displayNat n ++ rest := by
  obtain ⟨byte, tail, heq, hdigit⟩ := displayNat_head n rest
  rw [heq, skipSeparator, isSeparator_digit byte hdigit]
  rfl

/-- The number after a spelling is recorded, and what follows it is left. -/
theorem recordNumber_displayNat (recordN : Groups → List Byte → Groups) (n : ℕ)
    {rest : List Byte} (hrest : NoDigit rest) (groups : Groups) :
    recordNumber recordN (skipSeparator (displayNat n ++ rest)) groups =
        recordN groups (displayNat n) ∧
      (skipSeparator (displayNat n ++ rest)).dropWhile Byte.isAsciiDigit = rest := by
  obtain ⟨htake, hdrop⟩ := takeWhile_displayNat n hrest
  rw [skipSeparator_displayNat, recordNumber, htake, hdrop,
    if_neg (displayNat_ne_nil n)]
  exact ⟨rfl, rfl⟩

/-! ## Suffixes -/

/-- The text ends, or goes on with one of the literals. -/
def Follows (literals : List String) (text : List Byte) : Prop :=
  text = [] ∨ ∃ literal ∈ literals, ∃ rest, text = ascii literal ++ rest

theorem Follows.mono {literals literals' : List String} {text : List Byte}
    (hsub : literals ⊆ literals') (hfollows : Follows literals text) :
    Follows literals' text := by
  apply hfollows.imp_right
  rintro ⟨literal, hliteral, htext⟩
  exact ⟨literal, hsub hliteral, htext⟩

theorem Follows.append {literals : List String} {literal : String}
    (hliteral : literal ∈ literals) (rest : List Byte) :
    Follows literals (ascii literal ++ rest) :=
  .inr ⟨literal, hliteral, rest, rfl⟩

/-- What the displayed parts after the release start with. -/
def suffixLiterals : List String := ["a", "b", "rc", ".post", ".dev", "+"]

theorem Follows.noDigit {text : List Byte} (hfollows : Follows suffixLiterals text) :
    NoDigit text := by
  obtain rfl | ⟨literal, hliteral, rest, rfl⟩ := hfollows
  · exact noDigit_nil
  · simp only [suffixLiterals, List.mem_cons, List.not_mem_nil, or_false] at hliteral
    rcases hliteral with rfl | rfl | rfl | rfl | rfl | rfl <;>
      exact noDigit_cons (by decide) _

def displayDev (dev : Option ℕ) : List Byte :=
  (dev.map fun dev => ascii ".dev" ++ displayNat dev).getD []

def displayPost (post : Option ℕ) : List Byte :=
  (post.map fun post => ascii ".post" ++ displayNat post).getD []

def displayPre (pre : Option Prerelease) : List Byte :=
  (pre.map Prerelease.display).getD []

theorem follows_displayDev (dev : Option ℕ) {rest : List Byte}
    (hrest : Follows ["+"] rest) : Follows [".dev", "+"] (displayDev dev ++ rest) := by
  cases dev with
  | none => exact hrest.mono (by simp)
  | some dev =>
      rw [displayDev, Option.map_some, Option.getD_some, List.append_assoc]
      exact .append (by simp) _

theorem follows_displayPost (post : Option ℕ) {rest : List Byte}
    (hrest : Follows [".dev", "+"] rest) :
    Follows [".post", ".dev", "+"] (displayPost post ++ rest) := by
  cases post with
  | none => exact hrest.mono (by simp)
  | some post =>
      rw [displayPost, Option.map_some, Option.getD_some, List.append_assoc]
      exact .append (by simp) _

theorem follows_displayPre (pre : Option Prerelease) {rest : List Byte}
    (hrest : Follows [".post", ".dev", "+"] rest) :
    Follows suffixLiterals (displayPre pre ++ rest) := by
  cases pre with
  | none => exact hrest.mono (by simp [suffixLiterals])
  | some pre =>
      rw [displayPre, Option.map_some, Option.getD_some, Prerelease.display,
        List.append_assoc]
      cases pre.kind <;> exact .append (by simp [suffixLiterals]) _

theorem afterPost_displayed (dev : Option ℕ) {rest : List Byte}
    (hrest : Follows ["+"] rest) {groups : Groups} (hdevL : groups.devL = none)
    (hdevN : groups.devN = none) :
    afterPost (displayDev dev ++ rest) groups =
      afterDev rest { groups with
        devL := dev.map fun _ => ascii "dev"
        devN := dev.map displayNat } := by
  cases dev with
  | none =>
      have hgroups : ({ groups with devL := none, devN := none } : Groups) = groups := by
        cases groups
        cases hdevL
        cases hdevN
        rfl
      rw [Option.map_none, Option.map_none, hgroups]
      apply afterPost_none
      obtain rfl | ⟨literal, hliteral, tail, rfl⟩ := hrest
      · rfl
      · rw [List.mem_singleton.mp hliteral]
        rfl
  | some dev =>
      have hskip : skipSeparator (ascii ".dev" ++ (displayNat dev ++ rest)) =
          ascii "dev" ++ (displayNat dev ++ rest) := rfl
      have hdrop : (ascii "dev" ++ (displayNat dev ++ rest)).drop 3 =
          displayNat dev ++ rest := rfl
      obtain ⟨hrecord, hleft⟩ := recordNumber_displayNat
        (fun groups text => { groups with devN := some text }) dev
        (hrest.mono (by simp [suffixLiterals])).noDigit
        { groups with devL := some (ascii "dev") }
      rw [displayDev, Option.map_some, Option.getD_some, List.append_assoc,
        afterPost_dev rfl, hskip, hdrop, hleft]
      exact congrArg (afterDev rest) hrecord

theorem afterPre_displayed (post : Option ℕ) {rest : List Byte}
    (hrest : Follows [".dev", "+"] rest) {groups : Groups}
    (hpostL : groups.postL = none) (hpostN2 : groups.postN2 = none) :
    afterPre (displayPost post ++ rest) groups =
      afterPost rest { groups with
        postL := post.map fun _ => ascii "post"
        postN2 := post.map displayNat } := by
  cases post with
  | none =>
      have hgroups : ({ groups with postL := none, postN2 := none } : Groups) =
          groups := by
        cases groups
        cases hpostL
        cases hpostN2
        rfl
      rw [Option.map_none, Option.map_none, hgroups]
      obtain rfl | ⟨literal, hliteral, tail, rfl⟩ := hrest
      · apply afterPre_none
        · simp [displayPost]
        · decide
      · simp only [List.mem_cons, List.not_mem_nil, or_false] at hliteral
        apply afterPre_none
        · intro tail' heq
          rcases hliteral with rfl | rfl <;> cases heq
        · intro spelling hspelling
          simp only [postSpellings, List.mem_cons, List.not_mem_nil, or_false]
            at hspelling
          rcases hliteral with rfl | rfl <;>
            rcases hspelling with rfl | rfl | rfl <;> rfl
  | some post =>
      have hskip : skipSeparator (ascii ".post" ++ (displayNat post ++ rest)) =
          ascii "post" ++ (displayNat post ++ rest) := rfl
      have hdrop : (ascii "post" ++ (displayNat post ++ rest)).drop
          (ascii "post").length = displayNat post ++ rest := rfl
      obtain ⟨hrecord, hleft⟩ := recordNumber_displayNat recordPostN post
        (hrest.mono (by simp [suffixLiterals])).noDigit
        { groups with postL := some (ascii "post") }
      rw [displayPost, Option.map_some, Option.getD_some, List.append_assoc,
        @afterPre_spelled "post" (by decide) _ rfl (fun heq => absurd heq (by decide)),
        hskip, hdrop, hleft]
      exact congrArg (afterPost rest) hrecord

/-- The displayed letters of a pre-release. -/
def preLiteral : PrereleaseKind → String
  | .alpha => "a"
  | .beta => "b"
  | .rc => "rc"

/-- Letters that start the text end before its first digit. -/
theorem length_le_of_prefixBy {letters text : List Byte} {byte : Byte}
    (hletters : ∀ letter ∈ letters, isLetter letter = true)
    (hdigit : Byte.isAsciiDigit byte = true) (rest : List Byte)
    (hstarts : Regex.prefixBy Byte.eqIgnoreAsciiCase letters (text ++ byte :: rest) =
      true) : letters.length ≤ text.length := by
  induction text generalizing letters with
  | nil =>
      cases letters with
      | nil => exact le_rfl
      | cons letter letters =>
          rw [List.nil_append, Regex.prefixBy, Bool.and_eq_true] at hstarts
          have hletter := isLetter_eqIgnoreAsciiCase letter byte
            (hletters letter (by simp)) hstarts.1
          rw [(isDigit_facts byte hdigit).1] at hletter
          cases hletter
  | cons head text ih =>
      cases letters with
      | nil => exact Nat.zero_le _
      | cons letter letters =>
          rw [List.cons_append, Regex.prefixBy, Bool.and_eq_true] at hstarts
          have hle := ih (fun l hl => hletters l (by simp [hl])) hstarts.2
          simpa using hle

theorem afterRelease_displayed (pre : Option Prerelease) {rest : List Byte}
    (hrest : Follows [".post", ".dev", "+"] rest) {groups : Groups}
    (hpreL : groups.preL = none) (hpreN : groups.preN = none) :
    afterRelease (displayPre pre ++ rest) groups =
      afterPre rest { groups with
        preL := pre.map fun pre => ascii (preLiteral pre.kind)
        preN := pre.map fun pre => displayNat pre.number } := by
  cases pre with
  | none =>
      have hgroups : ({ groups with preL := none, preN := none } : Groups) =
          groups := by
        cases groups
        cases hpreL
        cases hpreN
        rfl
      rw [Option.map_none, Option.map_none, hgroups]
      apply afterRelease_none
      intro spelling hspelling
      simp only [preSpellings, List.mem_cons, List.not_mem_nil, or_false] at hspelling
      obtain rfl | ⟨literal, hliteral, tail, rfl⟩ := hrest
      · rcases hspelling with rfl | rfl | rfl | rfl | rfl | rfl | rfl | rfl <;> rfl
      · simp only [List.mem_cons, List.not_mem_nil, or_false] at hliteral
        rcases hliteral with rfl | rfl | rfl <;>
          rcases hspelling with rfl | rfl | rfl | rfl | rfl | rfl | rfl | rfl <;> rfl
  | some pre =>
      obtain ⟨byte, tail, hnumber, hdigit⟩ := displayNat_head pre.number rest
      have hdisplay : displayPre (some pre) ++ rest =
          ascii (preLiteral pre.kind) ++ (displayNat pre.number ++ rest) := by
        rw [displayPre, Option.map_some, Option.getD_some, Prerelease.display,
          List.append_assoc]
        cases pre.kind <;> rfl
      have hskip : skipSeparator (ascii (preLiteral pre.kind) ++
          (displayNat pre.number ++ rest)) =
            ascii (preLiteral pre.kind) ++ (displayNat pre.number ++ rest) := by
        cases pre.kind <;> rfl
      have hstarts : startsWith (preLiteral pre.kind) (ascii (preLiteral pre.kind) ++
          (displayNat pre.number ++ rest)) = true := by
        cases pre.kind <;> rfl
      have hmem : preLiteral pre.kind ∈ preSpellings := by
        cases pre.kind <;> decide
      have hlongest : ∀ other ∈ preSpellings,
          startsWith other (skipSeparator (ascii (preLiteral pre.kind) ++
            (displayNat pre.number ++ rest))) = true →
          (ascii other).length ≤ (ascii (preLiteral pre.kind)).length := by
        have hletters : ∀ other ∈ preSpellings, ∀ letter ∈ ascii other,
            isLetter letter = true := by
          decide +kernel
        intro other hother hstarts
        rw [hskip, hnumber] at hstarts
        exact length_le_of_prefixBy (hletters other hother) hdigit tail hstarts
      obtain ⟨hrecord, hleft⟩ := recordNumber_displayNat recordPreN pre.number
        (hrest.mono (by simp [suffixLiterals])).noDigit
        { groups with preL := some (ascii (preLiteral pre.kind)) }
      rw [hdisplay, afterRelease_spelled hmem (by rw [hskip, hstarts])
        hlongest, hskip, List.drop_left, List.take_left, hleft]
      exact congrArg (afterPre rest) hrecord

/-! ## The local part -/

/-- Displayed and read again, the segment is itself. -/
structure LocalSegment.Normal (segment : LocalSegment) : Prop where
  ne_nil : segment.display ≠ []
  alphanumeric : ∀ byte ∈ segment.display, Byte.isAsciiAlphanumeric byte = true
  segment_eq : Groups.segment segment.display = segment

theorem splitOnP_intercalate {p : Byte → Bool} {separator : Byte}
    (hseparator : p separator = true) {texts : List (List Byte)} (hne : texts ≠ [])
    (htexts : ∀ text ∈ texts, ∀ byte ∈ text, p byte = false) :
    ([separator].intercalate texts).splitOnP p = texts := by
  induction texts with
  | nil => exact (hne rfl).elim
  | cons text texts ih =>
      have htext := htexts text (by simp)
      cases texts with
      | nil =>
          rw [List.intercalate_singleton]
          exact List.splitOnP_eq_singleton htext
      | cons text' texts =>
          rw [List.intercalate_cons_cons, List.append_assoc, List.singleton_append,
            List.splitOnP_append_cons_of_forall_mem htext separator hseparator,
            ih (by simp) fun t ht => htexts t (by simp [ht])]

theorem matchK_localText_displayed {β : Type} {next : Regex.Continuation Byte Groups β}
    (halnum : ∀ byte rest groups, Byte.isAsciiAlphanumeric byte = true →
      next (byte :: rest) groups = none)
    (hseparator : ∀ byte rest groups, isSeparator byte = true →
      next (byte :: rest) groups = none) {texts : List (List Byte)} (hne : texts ≠ [])
    (htexts : ∀ text ∈ texts, text ≠ [] ∧
      ∀ byte ∈ text, Byte.isAsciiAlphanumeric byte = true) (groups : Groups) :
    localText.matchK next ((ascii ".").intercalate texts) groups = next [] groups := by
  have hdot : Byte.isAsciiAlphanumeric 46 = false := by decide
  induction texts with
  | nil => exact (hne rfl).elim
  | cons text texts ih =>
      obtain ⟨htext, halpha⟩ := htexts text (by simp)
      cases texts with
      | nil =>
          rw [List.intercalate_singleton, Parser.matchK_localText halnum hseparator,
            List.takeWhile_eq_self_iff.mpr halpha, List.dropWhile_eq_nil_iff.mpr halpha,
            if_neg htext]
      | cons text' texts =>
          have happend : (ascii ".").intercalate (text :: text' :: texts) =
              text ++ 46 :: (ascii ".").intercalate (text' :: texts) := by
            rw [List.intercalate_cons_cons, List.append_assoc]
            rfl
          rw [happend, Parser.matchK_localText halnum hseparator,
            List.takeWhile_append_of_pos halpha, List.dropWhile_append_of_pos halpha]
          rw [List.takeWhile_cons_of_neg (by simp [hdot]),
            List.dropWhile_cons_of_neg (by simp [hdot]), List.append_nil, if_neg htext]
          dsimp only
          rw [if_pos (by decide)]
          exact ih (by simp) fun t ht => htexts t (by simp [ht])

def joinLocal (parts : List LocalSegment) : List Byte :=
  (ascii ".").intercalate (parts.map LocalSegment.display)

def displayLocal (parts : List LocalSegment) : List Byte :=
  if parts.isEmpty then [] else ascii "+" ++ joinLocal parts

theorem follows_displayLocal (parts : List LocalSegment) :
    Follows ["+"] (displayLocal parts) := by
  rw [displayLocal]
  split
  · exact .inl rfl
  · exact .append (by simp) _

theorem afterDev_displayed {parts : List LocalSegment}
    (hparts : ∀ segment ∈ parts, segment.Normal) {groups : Groups}
    (hlocal : groups.localText = none) :
    afterDev (displayLocal parts) groups =
      some { groups with
        localText := if parts.isEmpty then none else some (joinLocal parts) } := by
  by_cases hempty : parts.isEmpty = true
  · have hgroups : ({ groups with localText := none } : Groups) = groups := by
      cases groups
      cases hlocal
      rfl
    rw [displayLocal, if_pos hempty, if_pos hempty, hgroups]
    rfl
  · rw [displayLocal, if_neg hempty, if_neg hempty]
    have hstarts : startsWith "+" (ascii "+" ++ joinLocal parts) = true := rfl
    have hend : atEnd (ascii "+" ++ joinLocal parts) groups = none := rfl
    have htexts : ∀ text ∈ parts.map LocalSegment.display, text ≠ [] ∧
        ∀ byte ∈ text, Byte.isAsciiAlphanumeric byte = true := by
      intro text htext
      obtain ⟨segment, hsegment, rfl⟩ := List.mem_map.mp htext
      exact ⟨(hparts segment hsegment).ne_nil, (hparts segment hsegment).alphanumeric⟩
    have hne : parts.map LocalSegment.display ≠ [] := by
      simpa using hempty
    unfold afterDev localPart
    rw [Regex.matchK_opt, Regex.matchK_seq, matchK_text, if_pos hstarts, hend,
      Option.or_none]
    have hmatch := @matchK_localText_displayed Groups
      (fun rest groups => atEnd rest { groups with
        localText := some ((joinLocal parts).take
          ((joinLocal parts).length - rest.length)) })
      (by
        intro byte rest groups hbyte
        simp [atEnd, (Parser.isAlphanumeric_facts byte hbyte).2])
      (by
        intro byte rest groups hbyte
        simp [atEnd, (isSeparator_facts byte hbyte).2.2.1])
      (parts.map LocalSegment.display) hne htexts groups
    have htake : (joinLocal parts).take ((joinLocal parts).length - ([] : List Byte).length) =
        joinLocal parts := by
      rw [List.length_nil, Nat.sub_zero, List.take_length]
    rw [htake] at hmatch
    exact hmatch

/-! ## The release and the epoch -/

def displayRelease (release : List ℕ) : List Byte :=
  (ascii ".").intercalate (release.map displayNat)

def displayEpoch (epoch : ℕ) : List Byte :=
  if epoch ≠ 0 then displayNat epoch ++ ascii "!" else []

theorem displayRelease_cons (n : ℕ) (numbers : List ℕ) :
    displayRelease (n :: numbers) =
      displayNat n ++ numbers.flatMap fun n => 46 :: displayNat n := by
  induction numbers generalizing n with
  | nil => simp [displayRelease]
  | cons m numbers ih =>
      have happend : displayRelease (n :: m :: numbers) =
          displayNat n ++ 46 :: displayRelease (m :: numbers) := by
        rw [displayRelease, List.map_cons, List.map_cons, List.intercalate_cons_cons,
          List.append_assoc]
        rfl
      rw [happend, ih, List.flatMap_cons, List.cons_append]

theorem noDigit_dotted (numbers : List ℕ) {rest : List Byte}
    (hrest : Follows suffixLiterals rest) :
    NoDigit ((numbers.flatMap fun n => 46 :: displayNat n) ++ rest) := by
  cases numbers with
  | nil => exact hrest.noDigit
  | cons m numbers => exact noDigit_cons (by decide) _

theorem matchK_dotted_displayed (input : List Byte) (numbers : List ℕ)
    {rest : List Byte} (hrest : Follows suffixLiterals rest) (groups : Groups) :
    dotted.matchK (closeRelease input)
        ((numbers.flatMap fun n => 46 :: displayNat n) ++ rest) groups =
      closeRelease input rest groups := by
  induction numbers with
  | nil =>
      apply matchK_dotted_none (closeRelease_digit input)
      intro tail heq
      obtain rfl | ⟨literal, hliteral, tail', rfl⟩ := hrest
      · cases heq
      · simp only [suffixLiterals, List.mem_cons, List.not_mem_nil, or_false] at hliteral
        rcases hliteral with rfl | rfl | rfl | rfl | rfl | rfl <;> cases heq <;> rfl
  | cons n numbers ih =>
      obtain ⟨htake, hdrop⟩ := takeWhile_displayNat n (noDigit_dotted numbers hrest)
      rw [List.flatMap_cons, List.cons_append, List.cons_append, List.append_assoc,
        matchK_dotted_dot (closeRelease_digit input) (closeRelease_dot input)
          (by rw [htake]; exact displayNat_ne_nil n), hdrop, ih]

/-- The release, where it starts. -/
theorem dotted_displayed {release : List ℕ} (hne : release ≠ []) {rest : List Byte}
    (hrest : Follows suffixLiterals rest) (groups : Groups) :
    (displayRelease release ++ rest).takeWhile Byte.isAsciiDigit ≠ [] ∧
      startsWith "!" ((displayRelease release ++ rest).dropWhile Byte.isAsciiDigit) =
        false ∧
      dotted.matchK (closeRelease (displayRelease release ++ rest))
        ((displayRelease release ++ rest).dropWhile Byte.isAsciiDigit) groups =
          afterRelease rest { groups with release := some (displayRelease release) } := by
  cases release with
  | nil => exact (hne rfl).elim
  | cons n numbers =>
      obtain ⟨htake, hdrop⟩ := takeWhile_displayNat n (noDigit_dotted numbers hrest)
      have hclose : closeRelease (displayRelease (n :: numbers) ++ rest) rest groups =
          afterRelease rest { groups with
            release := some (displayRelease (n :: numbers)) } := by
        rw [closeRelease, List.length_append, Nat.add_sub_cancel, List.take_left]
      rw [← hclose, displayRelease_cons, List.append_assoc, htake, hdrop,
        ← List.append_assoc]
      refine ⟨displayNat_ne_nil n, ?_, matchK_dotted_displayed _ numbers hrest groups⟩
      cases numbers with
      | nil =>
          obtain rfl | ⟨literal, hliteral, tail, rfl⟩ := hrest
          · rfl
          · simp only [suffixLiterals, List.mem_cons, List.not_mem_nil, or_false]
              at hliteral
            rcases hliteral with rfl | rfl | rfl | rfl | rfl | rfl <;> rfl
      | cons m numbers => rfl

theorem fromEpoch_displayed {release : List ℕ} (hne : release ≠ []) {rest : List Byte}
    (hrest : Follows suffixLiterals rest) (epoch : ℕ) :
    fromEpoch (displayEpoch epoch ++ (displayRelease release ++ rest)) start =
      afterRelease rest { start with
        epoch := if epoch ≠ 0 then some (displayNat epoch) else none
        release := some (displayRelease release) } := by
  by_cases hepoch : epoch ≠ 0
  · obtain ⟨htake, hdrop⟩ := takeWhile_displayNat epoch
      (show NoDigit (ascii "!" ++ (displayRelease release ++ rest)) from
        noDigit_cons (by decide) _)
    have hbang : startsWith "!" (ascii "!" ++ (displayRelease release ++ rest)) = true :=
      rfl
    have hafter : (ascii "!" ++ (displayRelease release ++ rest)).drop 1 =
        displayRelease release ++ rest := rfl
    obtain ⟨hdigits, -, hdotted⟩ := dotted_displayed hne hrest
      { start with epoch := some (displayNat epoch) }
    rw [displayEpoch, if_pos hepoch, if_pos hepoch, List.append_assoc, fromEpoch_eq
      (by rw [htake]; exact displayNat_ne_nil epoch), htake, hdrop, if_pos hbang, hafter,
      fromRelease_eq, if_neg hdigits, hdotted]
  · obtain ⟨hdigits, hbang, hdotted⟩ := dotted_displayed hne hrest start
    rw [displayEpoch, if_neg hepoch, if_neg hepoch, List.nil_append,
      fromEpoch_eq hdigits, hbang, if_neg Bool.false_ne_true, hdotted]
    rfl

/-! ## Parsing a displayed version -/

/-- Components as the parser stores them. -/
structure VersionFull.Stored (full : VersionFull) : Prop where
  epoch : full.epoch ≤ u64Max
  release : ∀ n ∈ full.release, n ≤ u64Max
  pre : ∀ pre, full.pre = some pre → pre.number ≤ u64Max
  post : ∀ post, full.post = some post → post ≤ u64Max
  dev : ∀ dev, full.dev = some dev → dev ≤ u64Max
  localVersion : ∃ parts, full.localVersion = .segments parts ∧
    ∀ segment ∈ parts, segment.Normal
  min : full.min = none
  max : full.max = none

def VersionFull.displayGroups (full : VersionFull) (parts : List LocalSegment) :
    Groups where
  epoch := if full.epoch ≠ 0 then some (displayNat full.epoch) else none
  release := some (displayRelease full.release)
  preL := full.pre.map fun pre => ascii (preLiteral pre.kind)
  preN := full.pre.map fun pre => displayNat pre.number
  postN1 := none
  postL := full.post.map fun _ => ascii "post"
  postN2 := full.post.map displayNat
  devL := full.dev.map fun _ => ascii "dev"
  devN := full.dev.map displayNat
  localText := if parts.isEmpty then none else some (joinLocal parts)

section Read

variable {full : VersionFull} (parts : List LocalSegment) (hstored : full.Stored)

theorem mapM_number_displayNat {numbers : List ℕ} (hnumbers : ∀ n ∈ numbers, n ≤ u64Max) :
    (numbers.map displayNat).mapM number = some numbers := by
  induction numbers with
  | nil => rfl
  | cons n numbers ih =>
      rw [List.map_cons, List.mapM_cons, number_displayNat (hnumbers n (by simp)),
        ih fun m hm => hnumbers m (by simp [hm])]
      rfl

include hstored

theorem readEpoch_displayGroups :
    (full.displayGroups parts).readEpoch = some full.epoch := by
  simp only [Groups.readEpoch, VersionFull.displayGroups]
  by_cases hzero : full.epoch = 0
  · rw [if_neg (by simpa using hzero), hzero]
    rfl
  · rw [if_pos hzero]
    exact number_displayNat hstored.epoch

theorem readRelease_displayGroups (hne : full.release ≠ []) :
    (full.displayGroups parts).readRelease = some full.release := by
  have hdot : ∀ byte : Byte, Byte.isAsciiDigit byte = true → (byte.val == 46) = false := by
    decide +kernel
  have hsplit : (displayRelease full.release).splitOnP (·.val == 46) =
      full.release.map displayNat := by
    apply @splitOnP_intercalate (·.val == 46) 46 rfl
    · simpa using hne
    · intro text htext byte hbyte
      obtain ⟨n, -, rfl⟩ := List.mem_map.mp htext
      exact hdot byte (isAsciiDigit_displayNat hbyte)
  simp only [Groups.readRelease, VersionFull.displayGroups, Option.getD_some]
  rw [hsplit, mapM_number_displayNat hstored.release]

theorem readPre_displayGroups : (full.displayGroups parts).readPre = some full.pre := by
  have hkind : ∀ kind, Groups.preKind (ascii (preLiteral kind)) = kind := by
    intro kind
    cases kind <;> decide
  simp only [Groups.readPre, VersionFull.displayGroups]
  cases hpre : full.pre with
  | none => rfl
  | some pre =>
      have hnumber := number_displayNat (hstored.pre pre hpre)
      simp only [Option.map_some, numberOrZero, hnumber, hkind]

theorem readPost_displayGroups : (full.displayGroups parts).readPost = some full.post := by
  simp only [Groups.readPost, VersionFull.displayGroups]
  cases hpost : full.post with
  | none => rfl
  | some post =>
      have hnumber := number_displayNat (hstored.post post hpost)
      simp only [Option.map_some, numberOrZero, hnumber]

theorem readDev_displayGroups : (full.displayGroups parts).readDev = some full.dev := by
  simp only [Groups.readDev, VersionFull.displayGroups]
  cases hdev : full.dev with
  | none => rfl
  | some dev =>
      have hnumber := number_displayNat (hstored.dev dev hdev)
      simp only [Option.map_some, numberOrZero, hnumber]

omit hstored in
theorem readLocal_displayGroups (hparts : ∀ segment ∈ parts, segment.Normal) :
    (full.displayGroups parts).readLocal = parts := by
  simp only [Groups.readLocal, VersionFull.displayGroups]
  cases hempty : parts.isEmpty with
  | true =>
      rw [if_pos rfl]
      exact (List.isEmpty_iff.mp hempty).symm
  | false =>
      have hsplit : (joinLocal parts).splitOnP isSeparator =
          parts.map LocalSegment.display := by
        apply @splitOnP_intercalate isSeparator 46 (by decide)
        · simpa using hempty
        · intro text htext byte hbyte
          obtain ⟨segment, hsegment, rfl⟩ := List.mem_map.mp htext
          exact (Parser.isAlphanumeric_facts byte
            ((hparts segment hsegment).alphanumeric byte hbyte)).1
      rw [if_neg Bool.false_ne_true]
      dsimp only
      rw [hsplit, List.map_map]
      calc parts.map (Groups.segment ∘ LocalSegment.display)
          = parts.map id :=
            List.map_congr_left fun segment hsegment =>
              (hparts segment hsegment).segment_eq
        _ = parts := List.map_id parts

/-- The captured groups read as the components that were displayed. -/
theorem components_displayGroups (hne : full.release ≠ [])
    (hlocal : full.localVersion = .segments parts)
    (hparts : ∀ segment ∈ parts, segment.Normal) :
    (full.displayGroups parts).components = some full := by
  rw [Groups.components, readEpoch_displayGroups parts hstored,
    readRelease_displayGroups parts hstored hne, readPre_displayGroups parts hstored,
    readPost_displayGroups parts hstored, readDev_displayGroups parts hstored,
    readLocal_displayGroups parts hparts]
  have hmin := hstored.min
  have hmax := hstored.max
  clear hstored hne
  cases full
  cases hmin
  cases hmax
  cases hlocal
  rfl

end Read

theorem Version.display_eq (version : Version) {parts : List LocalSegment}
    (hlocal : version.localVersion = .segments parts) :
    version.display = displayEpoch version.epoch ++ (displayRelease version.release ++
      (displayPre version.pre ++ (displayPost version.post ++
        (displayDev version.dev ++ displayLocal parts)))) := by
  rw [display, hlocal]
  simp only [List.append_assoc]
  rfl

theorem matchK_displayed (full : VersionFull) (hne : full.release ≠ [])
    {parts : List LocalSegment} (hparts : ∀ segment ∈ parts, segment.Normal) :
    fromEpoch (displayEpoch full.epoch ++ (displayRelease full.release ++
      (displayPre full.pre ++ (displayPost full.post ++
        (displayDev full.dev ++ displayLocal parts))))) start =
      some (full.displayGroups parts) := by
  have hlocal := follows_displayLocal parts
  have hdev := follows_displayDev full.dev hlocal
  have hpost := follows_displayPost full.post hdev
  have hpre := follows_displayPre full.pre hpost
  rw [fromEpoch_displayed hne hpre, afterRelease_displayed full.pre hpost rfl rfl,
    afterPre_displayed full.post hdev rfl rfl, afterPost_displayed full.dev hlocal rfl rfl,
    afterDev_displayed hparts rfl]
  rfl

/-- What is displayed starts with a digit. -/
theorem Version.display_head (version : Version) {parts : List LocalSegment}
    (hlocal : version.localVersion = .segments parts) (hne : version.release ≠ []) :
    ∃ byte rest, version.display = byte :: rest ∧ Byte.isAsciiDigit byte = true := by
  rw [version.display_eq hlocal, displayEpoch]
  split
  · rw [List.append_assoc]
    exact displayNat_head _ _
  · cases hrelease : version.release with
    | nil => exact (hne hrelease).elim
    | cons n numbers =>
        rw [displayRelease_cons, List.nil_append, List.append_assoc]
        exact displayNat_head _ _

/-- A version with components as the parser stores them reads as itself. -/
theorem Version.makeFull_fromStr_display {version : Version}
    (hstored : version.makeFull.Stored) (hne : version.release ≠ []) :
    (fromStr version.display).toOption.map makeFull = some version.makeFull := by
  obtain ⟨parts, hlocal, hparts⟩ := hstored.localVersion
  rw [← components_eq] at *
  obtain ⟨byte, rest, hhead, hdigit⟩ := version.display_head hlocal hne
  have hspace : version.display.dropWhile Byte.isAsciiWhitespace = version.display := by
    rw [hhead]
    simp [(isDigit_facts byte hdigit).2.2.1]
  have hletter : startsWith "v" version.display = false := by
    rw [hhead]
    exact startsWith_digit (Spelling.of_head (by decide)) hdigit rest
  rw [makeFull_fromStr, ← Parser.matchK_atEnd, hspace, matchK_version, hletter,
    if_neg Bool.false_ne_true, version.display_eq hlocal]
  have hmatch := matchK_displayed version.components hne hparts
  have hcomponents := components_displayGroups parts hstored hne hlocal hparts
  calc (fromEpoch _ start).bind Groups.components
      = (some (version.components.displayGroups parts)).bind Groups.components :=
        congrArg (·.bind Groups.components) hmatch
    _ = some version.components := hcomponents

end Uv.Pep440
