import Uv.Core.Regex
import Uv.Pep440.Parser

/-!
# The PEP 440 grammar

The regular expression of PEP 440, Appendix B, with its named groups, and how
the groups of a match are read as the components of a version.  The rest of the
module is about the expression alone: with which bytes the part after each
component can start, and hence that its greedy choices never have to be taken
back.
-/

namespace Uv.Pep440

open Uv.Core

/-- The named groups of the expression. -/
structure Groups where
  epoch : Option (List Byte)
  release : Option (List Byte)
  preL : Option (List Byte)
  preN : Option (List Byte)
  postN1 : Option (List Byte)
  postL : Option (List Byte)
  postN2 : Option (List Byte)
  devL : Option (List Byte)
  devN : Option (List Byte)
  localText : Option (List Byte)
  deriving DecidableEq

namespace Grammar

abbrev Pattern := Regex Byte Groups

def start : Groups :=
  ⟨none, none, none, none, none, none, none, none, none, none⟩

def isSeparator (byte : Byte) : Bool := Parser.separator.contains byte

/-- A literal, ignoring ASCII case. -/
def text (literal : String) : Pattern :=
  Regex.literal Byte.eqIgnoreAsciiCase (ascii literal)

def digits : Pattern := .plus (.symbol Byte.isAsciiDigit)

def optSeparator : Pattern := .opt (.symbol isSeparator)

/-- `(?:(?P<epoch>[0-9]+)!)?` -/
def epoch : Pattern :=
  .opt (.seq (.capture (fun groups text => { groups with epoch := some text })
    digits) (text "!"))

/-- `[0-9]+(?:\.[0-9]+)*` -/
def releaseText : Pattern := .seq digits (.star (.seq (text ".") digits))

/-- `(?P<release>…)` -/
def release : Pattern :=
  .capture (fun groups text => { groups with release := some text }) releaseText

/-- `[-_\.]?(?P<l>…)[-_\.]?(?P<n>[0-9]+)?` -/
def spelled (recordL recordN : Groups → List Byte → Groups)
    (spellings : List String) : Pattern :=
  .seq optSeparator <|
    .seq (.alternatives (spellings.map fun spelling =>
      .capture recordL (text spelling))) <|
    .seq optSeparator <| .opt (.capture recordN digits)

/-- The pre-release group. -/
def pre : Pattern :=
  .opt (spelled (fun groups text => { groups with preL := some text })
    (fun groups text => { groups with preN := some text })
    ["a", "b", "c", "rc", "alpha", "beta", "pre", "preview"])

/-- The post-release group: `-N` or a spelled one. -/
def post : Pattern :=
  .opt (.alt
    (.seq (text "-")
      (.capture (fun groups text => { groups with postN1 := some text }) digits))
    (spelled (fun groups text => { groups with postL := some text })
      (fun groups text => { groups with postN2 := some text })
      ["post", "rev", "r"]))

/-- The dev-release group. -/
def dev : Pattern :=
  .opt (spelled (fun groups text => { groups with devL := some text })
    (fun groups text => { groups with devN := some text }) ["dev"])

/-- `[a-z0-9]+(?:[-_\.][a-z0-9]+)*` -/
def localText : Pattern :=
  .seq (.plus (.symbol Byte.isAsciiAlphanumeric))
    (.star (.seq (.symbol isSeparator)
      (.plus (.symbol Byte.isAsciiAlphanumeric))))

/-- `(?:\+(?P<local>…))?` -/
def localPart : Pattern :=
  .opt (.seq (text "+")
    (.capture (fun groups text => { groups with localText := some text })
      localText))

/-- The whole expression. -/
def version : Pattern :=
  .seq (.opt (text "v")) <| .seq epoch <| .seq release <| .seq pre <|
    .seq post <| .seq dev localPart

/-- The input without leading and trailing ASCII whitespace. -/
def strip (input : List Byte) : List Byte :=
  (input.dropWhile Byte.isAsciiWhitespace).rdropWhile Byte.isAsciiWhitespace

end Grammar

/-! ## Reading the groups -/

/-- The value of a run of decimal digits. -/
def decimal (digits : List Byte) : ℕ :=
  digits.foldl (fun n byte => n * 10 + (byte.val - 48)) 0

/-- A number that fits into a `u64`. -/
def number (digits : List Byte) : Option ℕ :=
  if decimal digits ≤ u64Max then some (decimal digits) else none

/-- An omitted number is zero. -/
def numberOrZero : Option (List Byte) → Option ℕ
  | none => some 0
  | some digits => number digits

namespace Groups

/-- The kind of pre-release a spelling stands for. -/
def preKind (letters : List Byte) : PrereleaseKind :=
  let lower := letters.map Byte.toAsciiLowercase
  if lower = ascii "a" ∨ lower = ascii "alpha" then .alpha
  else if lower = ascii "b" ∨ lower = ascii "beta" then .beta
  else .rc

/-- A local segment is a number if it is one that fits, else lower-cased
text. -/
def segment (text : List Byte) : LocalSegment :=
  if text.all Byte.isAsciiDigit ∧ decimal text ≤ u64Max then
    .number (decimal text)
  else .string (text.map Byte.toAsciiLowercase)

def readEpoch (groups : Groups) : Option ℕ := numberOrZero groups.epoch

def readRelease (groups : Groups) : Option (List ℕ) :=
  ((groups.release.getD []).splitOnP (·.val == 46)).mapM number

def readPre (groups : Groups) : Option (Option Prerelease) :=
  match groups.preL with
  | none => some none
  | some letters =>
      (numberOrZero groups.preN).map fun n => some ⟨preKind letters, n⟩

def readPost (groups : Groups) : Option (Option ℕ) :=
  match groups.postN1, groups.postL with
  | some digits, _ => (number digits).map some
  | none, none => some none
  | none, some _ => (numberOrZero groups.postN2).map some

def readDev (groups : Groups) : Option (Option ℕ) :=
  match groups.devL with
  | none => some none
  | some _ => (numberOrZero groups.devN).map some

def readLocal (groups : Groups) : List LocalSegment :=
  match groups.localText with
  | none => []
  | some text => (text.splitOnP Grammar.isSeparator).map segment

/-- The components of a match; `none` when a number outside the local part
exceeds `u64::MAX`. -/
def components (groups : Groups) : Option VersionFull := do
  let epoch ← groups.readEpoch
  let release ← groups.readRelease
  let pre ← groups.readPre
  let post ← groups.readPost
  let dev ← groups.readDev
  pure {
    epoch, release, pre, post, dev
    localVersion := .segments groups.readLocal
    min := none
    max := none }

def postNumerals (groups : Groups) : List (List Byte) :=
  match groups.postN1 with
  | some digits => [digits]
  | none => if groups.postL.isSome then groups.postN2.toList else []

/-- The digit runs outside the local part that stand for a number. -/
def numerals (groups : Groups) : List (List Byte) :=
  groups.epoch.toList ++ (groups.release.getD []).splitOnP (·.val == 46) ++
    (if groups.preL.isSome then groups.preN.toList else []) ++
    groups.postNumerals ++
    (if groups.devL.isSome then groups.devN.toList else [])

/-- Every number outside the local part fits into a `u64`. -/
def InRange (groups : Groups) : Prop :=
  ∀ digits ∈ groups.numerals, decimal digits ≤ u64Max

end Groups

namespace Grammar

/-! ## Bytes -/

theorem isSeparator_digit (byte : Byte) (hbyte : Byte.isAsciiDigit byte = true) :
    isSeparator byte = false := by
  revert byte
  decide +kernel

/-- Bytes that start a spelling. -/
def isLetter (byte : Byte) : Bool :=
  Byte.isAsciiUppercase byte || Byte.isAsciiLowercase byte

theorem isLetter_facts (byte : Byte) (hbyte : isLetter byte = true) :
    isSeparator byte = false ∧ Byte.isAsciiDigit byte = false ∧
      Byte.isAsciiWhitespace byte = false ∧ byte ≠ 43 ∧ byte ≠ 45 := by
  revert byte
  decide +kernel

theorem isSeparator_facts (byte : Byte) (hbyte : isSeparator byte = true) :
    isLetter byte = false ∧ Byte.isAsciiDigit byte = false ∧
      Byte.isAsciiWhitespace byte = false ∧ byte ≠ 43 := by
  revert byte
  decide +kernel

theorem isDigit_facts (byte : Byte) (hbyte : Byte.isAsciiDigit byte = true) :
    isLetter byte = false ∧ isSeparator byte = false ∧
      Byte.isAsciiWhitespace byte = false ∧ byte ≠ 43 := by
  revert byte
  decide +kernel

theorem isLetter_eqIgnoreAsciiCase (byte byte' : Byte)
    (hbyte : isLetter byte = true)
    (heq : Byte.eqIgnoreAsciiCase byte byte' = true) :
    isLetter byte' = true := by
  have hlower : ∀ b : Byte,
      isLetter b = isLetter (Byte.toAsciiLowercase b) := by
    decide +kernel
  unfold Byte.eqIgnoreAsciiCase at heq
  rw [hlower, ← eq_of_beq heq, ← hlower]
  exact hbyte

/-! ## The parts of the expression -/

/-- The input after an optional separator. -/
def skipSeparator : List Byte → List Byte
  | [] => []
  | byte :: rest => if isSeparator byte then rest else byte :: rest

/-- `literal` starts `input`, ignoring ASCII case. -/
def startsWith (literal : String) (input : List Byte) : Bool :=
  Regex.prefixBy Byte.eqIgnoreAsciiCase (ascii literal) input

section Parts

variable {β : Type} {next : Regex.Continuation Byte Groups β}

theorem matchK_text (literal : String) (input : List Byte) (groups : Groups) :
    (text literal).matchK next input groups =
      if startsWith literal input then
        next (input.drop (ascii literal).length) groups
      else none :=
  Regex.matchK_literal _ _ _ _

/-- A spelling starts with a letter. -/
def Spelling (literal : String) : Prop :=
  ∃ byte rest, ascii literal = byte :: rest ∧ isLetter byte = true

theorem Spelling.of_head {literal : String}
    (hhead : (ascii literal).head?.any isLetter = true) : Spelling literal := by
  cases htext : ascii literal with
  | nil => simp [htext] at hhead
  | cons byte rest => exact ⟨byte, rest, htext, by simpa [htext] using hhead⟩

theorem Spelling.head {literal : String} (hspelling : Spelling literal)
    {input : List Byte} (hstarts : startsWith literal input = true) :
    ∃ byte rest, input = byte :: rest ∧ isLetter byte = true := by
  obtain ⟨byte, rest, htext, hletter⟩ := hspelling
  unfold startsWith at hstarts
  rw [htext] at hstarts
  cases input with
  | nil => simp [Regex.prefixBy] at hstarts
  | cons byte' input =>
      simp only [Regex.prefixBy, Bool.and_eq_true] at hstarts
      exact ⟨byte', input, rfl, isLetter_eqIgnoreAsciiCase _ _ hletter hstarts.1⟩

/-- The tail of a spelled group: an optional separator and number. -/
def tail (recordN : Groups → List Byte → Groups) : Pattern :=
  .seq optSeparator <| .opt (.capture recordN digits)

/-- The alternatives of a spelled group and its tail. -/
def spelling (recordL recordN : Groups → List Byte → Groups)
    (spellings : List String) : Pattern :=
  .seq (.alternatives (spellings.map fun spelling =>
    .capture recordL (text spelling))) (tail recordN)

variable {recordL recordN : Groups → List Byte → Groups}
  {spellings : List String}

/-- The first spelling, in the order of the expression, whose continuation
succeeds. -/
theorem matchK_alternatives (input : List Byte) (groups : Groups) :
    (Regex.alternatives (spellings.map fun spelling =>
        Regex.capture recordL (text spelling))).matchK next input groups =
      spellings.findSome? fun literal =>
        if startsWith literal input then
          next (input.drop (ascii literal).length)
            (recordL groups (input.take (ascii literal).length))
        else none := by
  induction spellings with
  | nil => cases input <;> rfl
  | cons literal spellings ih =>
      rw [List.map_cons, Regex.matchK_alternatives_cons, ih,
        List.findSome?_cons]
      unfold text
      rw [Regex.matchK_capture_literal]
      unfold startsWith
      cases (if Regex.prefixBy Byte.eqIgnoreAsciiCase (ascii literal) input then
        next (input.drop (ascii literal).length)
          (recordL groups (input.take (ascii literal).length))
        else none) <;> rfl

theorem matchK_spelled (hspellings : ∀ literal ∈ spellings, Spelling literal)
    (input : List Byte) (groups : Groups) :
    (spelled recordL recordN spellings).matchK next input groups =
      (spelling recordL recordN spellings).matchK next (skipSeparator input)
        groups := by
  have hinner : spelled recordL recordN spellings =
      .seq optSeparator (spelling recordL recordN spellings) := rfl
  rw [hinner, Regex.matchK, optSeparator, Regex.matchK_opt]
  cases input with
  | nil => rfl
  | cons byte rest =>
      simp only [Regex.matchK, skipSeparator]
      by_cases hbyte : isSeparator byte = true
      · have hnone : (spelling recordL recordN spellings).matchK next
            (byte :: rest) groups = none := by
          unfold spelling
          rw [Regex.matchK, matchK_alternatives, List.findSome?_eq_none_iff]
          intro literal hliteral
          rw [if_neg]
          intro hstarts
          obtain ⟨byte', rest', hinput, hletter⟩ :=
            (hspellings literal hliteral).head hstarts
          obtain ⟨rfl, -⟩ := List.cons.inj hinput
          rw [(isSeparator_facts _ hbyte).1] at hletter
          exact absurd hletter (by decide)
        rw [hnone, if_pos hbyte, if_pos hbyte, Option.or_none]
      · simp [hbyte]

/-- What a continuation has to reject for the greedy choices before it to be
final. -/
structure Committed (next : Regex.Continuation Byte Groups β) : Prop where
  digit : ∀ byte rest groups, Byte.isAsciiDigit byte = true →
    next (byte :: rest) groups = none
  separator : ∀ byte rest groups groups', isSeparator byte = true →
    (next (byte :: rest) groups).isSome →
      (next (rest.dropWhile Byte.isAsciiDigit) groups').isSome

/-- The groups after an optional number at the start of `input`. -/
def recordNumber (recordN : Groups → List Byte → Groups) (input : List Byte)
    (groups : Groups) : Groups :=
  if input.takeWhile Byte.isAsciiDigit = [] then groups
  else recordN groups (input.takeWhile Byte.isAsciiDigit)

private theorem matchK_optNumber (hnext : Committed next) (input : List Byte)
    (groups : Groups) :
    (Regex.opt (.capture recordN digits)).matchK next input groups =
      next (input.dropWhile Byte.isAsciiDigit)
        (recordNumber recordN input groups) := by
  unfold digits recordNumber
  rw [Regex.matchK_opt, Regex.matchK_capture_plus_symbol _ hnext.digit]
  cases input with
  | nil => simp
  | cons byte rest =>
      by_cases hbyte : Byte.isAsciiDigit byte = true
      · simp [hbyte, hnext.digit]
      · simp [hbyte]

theorem matchK_tail (hnext : Committed next) (input : List Byte)
    (groups : Groups) :
    (tail recordN).matchK next input groups =
      next ((skipSeparator input).dropWhile Byte.isAsciiDigit)
        (recordNumber recordN (skipSeparator input) groups) := by
  unfold tail optSeparator
  rw [Regex.matchK, Regex.matchK_opt, matchK_optNumber hnext]
  cases input with
  | nil => rfl
  | cons byte rest =>
      by_cases hbyte : isSeparator byte = true
      · have hdigit := (isSeparator_facts byte hbyte).2.1
        have hsecond : next ((byte :: rest).dropWhile Byte.isAsciiDigit)
            (recordNumber recordN (byte :: rest) groups) =
              next (byte :: rest) groups := by
          simp [recordNumber, hdigit]
        simp only [Regex.matchK, hbyte, if_true, skipSeparator,
          matchK_optNumber hnext, hsecond]
        cases hfirst : next (rest.dropWhile Byte.isAsciiDigit)
            (recordNumber recordN rest groups) with
        | some result => rfl
        | none =>
            rw [Option.none_or, ← Option.not_isSome_iff_eq_none]
            intro hsome
            have hcommit := hnext.separator byte rest groups
              (recordNumber recordN rest groups) hbyte hsome
            rw [hfirst] at hcommit
            simp at hcommit
      · simp [Regex.matchK, hbyte, skipSeparator]

private theorem findSome?_eq {γ δ : Type} {f : γ → Option δ} {a : γ}
    {l : List γ} (ha : a ∈ l) (hother : ∀ b ∈ l, b ≠ a → f b = none) :
    l.findSome? f = f a := by
  cases hfa : f a with
  | none =>
      rw [List.findSome?_eq_none_iff]
      intro b hb
      by_cases hba : b = a
      · rw [hba, hfa]
      · exact hother b hb hba
  | some d =>
      induction l with
      | nil => simp at ha
      | cons b l ih =>
          rw [List.findSome?_cons]
          by_cases hba : b = a
          · rw [hba, hfa]
          · rw [hother b (by simp) hba]
            have hmem : a ∈ l := by
              rcases List.mem_cons.mp ha with hab | hmem
              · exact absurd hab.symm hba
              · exact hmem
            exact ih hmem fun c hc => hother c (by simp [hc])

theorem matchK_spelling_none {input : List Byte}
    (hnone : ∀ literal ∈ spellings, startsWith literal input = false)
    (groups : Groups) :
    (spelling recordL recordN spellings).matchK next input groups = none := by
  unfold spelling
  rw [Regex.matchK, matchK_alternatives, List.findSome?_eq_none_iff]
  intro literal hliteral
  rw [hnone literal hliteral]
  rfl

/-- Once a spelling is found whose competitors leave a letter behind, it is the
one that is used. -/
theorem matchK_spelling_commit (hnext : Committed next) {literal : String}
    (hliteral : literal ∈ spellings) {input : List Byte}
    (hstarts : startsWith literal input = true)
    (hother : ∀ other ∈ spellings, other ≠ literal →
      startsWith other input = true → ∃ byte rest,
        input.drop (ascii other).length = byte :: rest ∧
          isLetter byte = true ∧ ∀ groups, next (byte :: rest) groups = none)
    (groups : Groups) :
    (spelling recordL recordN spellings).matchK next input groups =
      next ((skipSeparator (input.drop (ascii literal).length)).dropWhile
          Byte.isAsciiDigit)
        (recordNumber recordN
          (skipSeparator (input.drop (ascii literal).length))
          (recordL groups (input.take (ascii literal).length))) := by
  unfold spelling
  rw [Regex.matchK, matchK_alternatives, findSome?_eq hliteral, if_pos hstarts,
    matchK_tail hnext]
  intro other hmem hne
  by_cases hstarts' : startsWith other input = true
  · obtain ⟨byte, rest, hdrop, hletter, hreject⟩ :=
      hother other hmem hne hstarts'
    obtain ⟨hseparator, hdigit, -⟩ := isLetter_facts byte hletter
    rw [if_pos hstarts', matchK_tail hnext, hdrop]
    simp [skipSeparator, hseparator, hdigit, hreject]
  · rw [if_neg hstarts']

end Parts

/-! ## Competing spellings -/

theorem prefixBy_trans {a b input : List Byte}
    (ha : Regex.prefixBy Byte.eqIgnoreAsciiCase a input = true)
    (hb : Regex.prefixBy Byte.eqIgnoreAsciiCase b input = true)
    (hlength : a.length ≤ b.length) :
    Regex.prefixBy Byte.eqIgnoreAsciiCase a b = true ∧
      Regex.prefixBy Byte.eqIgnoreAsciiCase (b.drop a.length)
        (input.drop a.length) = true := by
  induction a generalizing b input with
  | nil => exact ⟨rfl, hb⟩
  | cons byte a ih =>
      cases b with
      | nil => simp at hlength
      | cons byte' b =>
          cases input with
          | nil => simp [Regex.prefixBy] at ha
          | cons byte'' input =>
              simp only [Regex.prefixBy, Bool.and_eq_true] at ha hb ⊢
              obtain ⟨hstarts, hdrop⟩ := ih ha.2 hb.2 (by simpa using hlength)
              refine ⟨⟨?_, hstarts⟩, by simpa using hdrop⟩
              unfold Byte.eqIgnoreAsciiCase at ha hb ⊢
              rw [beq_iff_eq] at ha hb ⊢
              rw [ha.1, hb.1]

/-- Two literals of which neither starts the other. -/
def Conflict (left right : String) : Bool :=
  !Regex.prefixBy Byte.eqIgnoreAsciiCase (ascii left) (ascii right) &&
    !Regex.prefixBy Byte.eqIgnoreAsciiCase (ascii right) (ascii left)

theorem startsWith_of_conflict {left right : String} {input : List Byte}
    (hconflict : Conflict left right = true)
    (hleft : startsWith left input = true) :
    startsWith right input = false := by
  rw [Bool.eq_false_iff]
  intro hright
  unfold Conflict at hconflict
  unfold startsWith at hleft hright
  rcases Nat.le_total (ascii left).length (ascii right).length with hle | hle
  · have hstarts := (prefixBy_trans hleft hright hle).1
    simp [hstarts] at hconflict
  · have hstarts := (prefixBy_trans hright hleft hle).1
    simp [hstarts] at hconflict

/-- Where a literal and a longer one both start the input, the rest of the longer
one follows the shorter one. -/
theorem startsWith_drop {short long rest : String} {input : List Byte}
    (hrest : (ascii long).drop (ascii short).length = ascii rest)
    (hlength : (ascii short).length ≤ (ascii long).length)
    (hshort : startsWith short input = true)
    (hlong : startsWith long input = true) :
    startsWith rest (input.drop (ascii short).length) = true := by
  unfold startsWith at hshort hlong ⊢
  rw [← hrest]
  exact (prefixBy_trans hshort hlong hlength).2

/-! ## What can follow each component -/

/-- The end of the input, after trailing whitespace. -/
def atEnd : Regex.Continuation Byte Groups Groups := fun rest groups =>
  if rest.all Byte.isAsciiWhitespace then some groups else none

def afterDev : Regex.Continuation Byte Groups Groups := localPart.matchK atEnd

def afterPost : Regex.Continuation Byte Groups Groups := dev.matchK afterDev

def afterPre : Regex.Continuation Byte Groups Groups := post.matchK afterPost

def afterRelease : Regex.Continuation Byte Groups Groups := pre.matchK afterPre

theorem isSome_afterDev {input : List Byte} {groups : Groups}
    (hsome : (afterDev input groups).isSome) (groups' : Groups) :
    (afterDev input groups').isSome := by
  refine Regex.isSome_matchK_groups ?_ hsome groups'
  intro rest groups groups' hsome
  unfold atEnd at hsome ⊢
  split at hsome
  · simp_all
  · simp at hsome

theorem isSome_afterPost {input : List Byte} {groups : Groups}
    (hsome : (afterPost input groups).isSome) (groups' : Groups) :
    (afterPost input groups').isSome := by
  refine Regex.isSome_matchK_groups ?_ hsome groups'
  intro rest groups groups' hdev
  exact isSome_afterDev hdev groups'

theorem afterDev_none {byte : Byte} (hspace : Byte.isAsciiWhitespace byte = false)
    (hplus : byte ≠ 43) (rest : List Byte) (groups : Groups) :
    afterDev (byte :: rest) groups = none := by
  have hstarts : startsWith "+" (byte :: rest) = false := by
    have hbytes : ∀ b : Byte, b ≠ 43 → Byte.eqIgnoreAsciiCase 43 b = false := by
      decide +kernel
    have htext : ascii "+" = [43] := by decide
    simp [startsWith, htext, Regex.prefixBy, hbytes byte hplus]
  unfold afterDev localPart
  rw [Regex.matchK_opt, Regex.matchK, matchK_text, hstarts]
  simp [atEnd, hspace]

theorem committed_afterDev : Committed afterDev where
  digit := by
    intro byte rest groups hbyte
    obtain ⟨-, -, hspace, hplus⟩ := isDigit_facts byte hbyte
    exact afterDev_none hspace hplus rest groups
  separator := by
    intro byte rest groups groups' hbyte hsome
    obtain ⟨-, -, hspace, hplus⟩ := isSeparator_facts byte hbyte
    rw [afterDev_none hspace hplus] at hsome
    simp at hsome

/-- After a separator or not, the input does not end and no local part
starts. -/
theorem afterDev_none_of_skip {input rest : List Byte} {byte : Byte}
    (hrest : skipSeparator input = byte :: rest) (hletter : isLetter byte = true)
    (groups : Groups) : afterDev input groups = none := by
  cases input with
  | nil => simp [skipSeparator] at hrest
  | cons byte' input =>
      by_cases hbyte' : isSeparator byte' = true
      · obtain ⟨-, -, hspace, hplus⟩ := isSeparator_facts byte' hbyte'
        exact afterDev_none hspace hplus input groups
      · simp only [skipSeparator, hbyte'] at hrest
        obtain ⟨rfl, -⟩ := List.cons.inj hrest
        obtain ⟨-, -, hspace, hplus, -⟩ := isLetter_facts byte' hletter
        exact afterDev_none hspace hplus input groups

theorem spelling_dev : ∀ literal ∈ ["dev"], Spelling literal := by
  simp only [List.mem_singleton, forall_eq]
  exact Spelling.of_head (by decide)

theorem afterPost_none {input : List Byte}
    (hstarts : startsWith "dev" (skipSeparator input) = false)
    (groups : Groups) : afterPost input groups = afterDev input groups := by
  unfold afterPost dev
  rw [Regex.matchK_opt, matchK_spelled spelling_dev,
    matchK_spelling_none (by simpa using hstarts), Option.none_or]

theorem afterPost_dev {input : List Byte}
    (hstarts : startsWith "dev" (skipSeparator input) = true)
    (groups : Groups) :
    afterPost input groups =
      afterDev ((skipSeparator ((skipSeparator input).drop 3)).dropWhile
          Byte.isAsciiDigit)
        (recordNumber (fun groups text => { groups with devN := some text })
          (skipSeparator ((skipSeparator input).drop 3))
          { groups with devL := some ((skipSeparator input).take 3) }) := by
  obtain ⟨byte, rest, hrest, hletter⟩ :=
    (spelling_dev "dev" (by simp)).head hstarts
  unfold afterPost dev
  rw [Regex.matchK_opt, matchK_spelled spelling_dev,
    afterDev_none_of_skip hrest hletter, Option.or_none,
    matchK_spelling_commit committed_afterDev (by simp) hstarts (by simp)]
  rfl

theorem skipSeparator_of_letter {byte : Byte} (hletter : isLetter byte = true)
    (rest : List Byte) : skipSeparator (byte :: rest) = byte :: rest := by
  simp [skipSeparator, (isLetter_facts byte hletter).1]

theorem committed_afterPost : Committed afterPost where
  digit := by
    intro byte rest groups hbyte
    obtain ⟨hletter, hseparator, -⟩ := isDigit_facts byte hbyte
    have hskip : skipSeparator (byte :: rest) = byte :: rest := by
      simp [skipSeparator, hseparator]
    rw [afterPost_none, committed_afterDev.digit byte rest groups hbyte]
    rw [hskip, Bool.eq_false_iff]
    intro hstarts
    obtain ⟨byte', rest', hinput, hletter'⟩ :=
      (spelling_dev "dev" (by simp)).head hstarts
    obtain ⟨rfl, -⟩ := List.cons.inj hinput
    rw [hletter] at hletter'
    exact absurd hletter' (by decide)
  separator := by
    intro byte rest groups groups' hbyte hsome
    have hskip : skipSeparator (byte :: rest) = rest := by
      simp [skipSeparator, hbyte]
    cases hstarts : startsWith "dev" rest with
    | false =>
        obtain ⟨-, -, hspace, hplus⟩ := isSeparator_facts byte hbyte
        rw [afterPost_none (by rw [hskip, hstarts]),
          afterDev_none hspace hplus] at hsome
        simp at hsome
    | true =>
        obtain ⟨head, tail, rfl, hletter⟩ :=
          (spelling_dev "dev" (by simp)).head hstarts
        have hdigit := (isLetter_facts head hletter).2.1
        have hskip' := skipSeparator_of_letter hletter tail
        rw [afterPost_dev (by rw [hskip, hstarts]), hskip] at hsome
        rw [List.dropWhile_cons_of_neg (by simp [hdigit]),
          afterPost_dev (by rw [hskip', hstarts]), hskip']
        exact isSome_afterDev hsome _

theorem afterPost_none_of_skip {input rest : List Byte} {byte : Byte}
    (hrest : skipSeparator input = byte :: rest) (hletter : isLetter byte = true)
    (hdev : startsWith "dev" (byte :: rest) = false) (groups : Groups) :
    afterPost input groups = none := by
  rw [afterPost_none (by rw [hrest, hdev]), afterDev_none_of_skip hrest hletter]

/-! ## Post-releases -/

def postSpellings : List String := ["post", "rev", "r"]

theorem spelling_post : ∀ literal ∈ postSpellings, Spelling literal := by
  intro literal hliteral
  simp only [postSpellings, List.mem_cons, List.not_mem_nil, or_false] at hliteral
  rcases hliteral with rfl | rfl | rfl <;> exact Spelling.of_head (by decide)

/-- The groups after a spelled post-release. -/
def recordPostN (groups : Groups) (text : List Byte) : Groups :=
  { groups with postN2 := some text }

/-- The `-N` form. -/
def dashNumber : Pattern :=
  .seq (text "-")
    (.capture (fun groups text => { groups with postN1 := some text }) digits)

theorem afterPre_eq (input : List Byte) (groups : Groups) :
    afterPre input groups =
      ((dashNumber.matchK afterPost input groups).or
        ((spelling (fun groups text => { groups with postL := some text })
          recordPostN postSpellings).matchK afterPost (skipSeparator input)
            groups)).or (afterPost input groups) := by
  rw [← matchK_spelled spelling_post]
  rfl

theorem matchK_dashNumber (input : List Byte) (groups : Groups) :
    dashNumber.matchK afterPost input groups =
      if startsWith "-" input = true ∧
          (input.drop 1).takeWhile Byte.isAsciiDigit ≠ [] then
        afterPost ((input.drop 1).dropWhile Byte.isAsciiDigit)
          { groups with
            postN1 := some ((input.drop 1).takeWhile Byte.isAsciiDigit) }
      else none := by
  unfold dashNumber digits
  rw [Regex.matchK, matchK_text]
  by_cases hdash : startsWith "-" input = true
  · rw [if_pos hdash, show (ascii "-").length = 1 from rfl,
      Regex.matchK_capture_plus_symbol _ committed_afterPost.digit]
    by_cases hempty : (input.drop 1).takeWhile Byte.isAsciiDigit = []
    · rw [if_pos hempty, if_neg fun hboth => hboth.2 hempty]
    · rw [if_neg hempty, if_pos ⟨hdash, hempty⟩]
  · rw [if_neg hdash, if_neg fun hboth => hdash hboth.1]

/-- `-` is the only byte that starts the `-N` form. -/
theorem startsWith_dash (byte : Byte) (rest : List Byte) :
    startsWith "-" (byte :: rest) = decide (byte = 45) := by
  have htext : ascii "-" = [45] := by decide
  have hbytes : ∀ b : Byte, Byte.eqIgnoreAsciiCase 45 b = decide (b = 45) := by
    decide +kernel
  simp [startsWith, htext, Regex.prefixBy, hbytes]

/-- The `-N` form does not apply where a letter follows the optional
separator. -/
theorem matchK_dashNumber_none {input rest : List Byte} {byte : Byte}
    (hrest : skipSeparator input = byte :: rest) (hletter : isLetter byte = true)
    (groups : Groups) :
    dashNumber.matchK afterPost input groups = none := by
  rw [matchK_dashNumber, if_neg]
  rintro ⟨hdash, hdigits⟩
  cases input with
  | nil => simp [skipSeparator] at hrest
  | cons byte' input =>
      rw [startsWith_dash, decide_eq_true_eq] at hdash
      subst hdash
      have hskip : skipSeparator (45 :: input) = input := by
        simp [skipSeparator, show isSeparator 45 = true from by decide]
      rw [hskip] at hrest
      apply hdigits
      rw [hrest]
      simp [(isLetter_facts byte hletter).2.1]

theorem afterPre_dash {rest : List Byte}
    (hdigits : rest.takeWhile Byte.isAsciiDigit ≠ []) (groups : Groups) :
    afterPre (45 :: rest) groups =
      afterPost (rest.dropWhile Byte.isAsciiDigit)
        { groups with postN1 := some (rest.takeWhile Byte.isAsciiDigit) } := by
  obtain ⟨byte, rest', rfl, hdigit⟩ : ∃ byte rest', rest = byte :: rest' ∧
      Byte.isAsciiDigit byte = true := by
    cases rest with
    | nil => simp at hdigits
    | cons byte rest' =>
        refine ⟨byte, rest', rfl, ?_⟩
        by_contra hbyte
        simp [hbyte] at hdigits
  have hskip : skipSeparator (45 :: byte :: rest') = byte :: rest' := by
    simp [skipSeparator, show isSeparator 45 = true from by decide]
  have hnone : ∀ literal, Spelling literal →
      startsWith literal (byte :: rest') = false := by
    intro literal hspelling
    rw [Bool.eq_false_iff]
    intro hstarts
    obtain ⟨byte', rest'', hinput, hletter⟩ := hspelling.head hstarts
    obtain ⟨rfl, -⟩ := List.cons.inj hinput
    rw [(isDigit_facts byte hdigit).1] at hletter
    exact absurd hletter (by decide)
  rw [afterPre_eq, hskip, matchK_spelling_none fun literal hliteral =>
      hnone literal (spelling_post literal hliteral),
    afterPost_none (by rw [hskip]; exact hnone _ (spelling_dev _ (by simp))),
    afterDev_none (by decide) (by decide), Option.or_none, Option.or_none,
    matchK_dashNumber, if_pos ⟨by rw [startsWith_dash]; rfl, hdigits⟩]
  rfl

theorem afterPre_none {input : List Byte}
    (hdash : ∀ rest, input = 45 :: rest → rest.takeWhile Byte.isAsciiDigit = [])
    (hnone : ∀ literal ∈ postSpellings,
      startsWith literal (skipSeparator input) = false) (groups : Groups) :
    afterPre input groups = afterPost input groups := by
  rw [afterPre_eq, matchK_spelling_none hnone, matchK_dashNumber, if_neg]
  · rfl
  · rintro ⟨hstarts, hdigits⟩
    cases input with
    | nil => exact absurd hstarts (by decide)
    | cons byte rest =>
        rw [startsWith_dash, decide_eq_true_eq] at hstarts
        subst hstarts
        exact hdigits (hdash rest rfl)

/-- A spelled post-release; of `rev` and `r`, the longer one counts. -/
theorem afterPre_spelled {literal : String} (hliteral : literal ∈ postSpellings)
    {input : List Byte}
    (hstarts : startsWith literal (skipSeparator input) = true)
    (hlonger : literal = "r" → startsWith "rev" (skipSeparator input) = false)
    (groups : Groups) :
    afterPre input groups =
      afterPost ((skipSeparator ((skipSeparator input).drop
          (ascii literal).length)).dropWhile Byte.isAsciiDigit)
        (recordNumber recordPostN
          (skipSeparator ((skipSeparator input).drop (ascii literal).length))
          { groups with
            postL := some ((skipSeparator input).take
              (ascii literal).length) }) := by
  obtain ⟨byte, rest, hrest, hletter⟩ :=
    (spelling_post literal hliteral).head hstarts
  have hdev : startsWith "dev" (byte :: rest) = false := by
    have hconflict : ∀ literal ∈ postSpellings,
        Conflict literal "dev" = true := by
      decide
    rw [← hrest]
    exact startsWith_of_conflict (hconflict literal hliteral) hstarts
  have hpairs : ∀ literal ∈ postSpellings, ∀ other ∈ postSpellings,
      other ≠ literal → (literal = "rev" ∧ other = "r") ∨
        (literal = "r" ∧ other = "rev") ∨ Conflict literal other = true := by
    decide
  rw [afterPre_eq, matchK_dashNumber_none hrest hletter,
    afterPost_none_of_skip hrest hletter hdev, Option.none_or, Option.or_none,
    matchK_spelling_commit committed_afterPost hliteral hstarts]
  intro other hother hne hstarts'
  rcases hpairs literal hliteral other hother hne with
    ⟨rfl, rfl⟩ | ⟨rfl, rfl⟩ | hconflict
  · have hdrop : startsWith "ev" ((skipSeparator input).drop
        (ascii "r").length) = true :=
      startsWith_drop (by decide) (by decide) hstarts' hstarts
    obtain ⟨byte', rest', hinput, hletter'⟩ :=
      (Spelling.of_head (by decide)).head hdrop
    refine ⟨byte', rest', hinput, hletter', fun groups => ?_⟩
    apply afterPost_none_of_skip (skipSeparator_of_letter hletter' rest')
      hletter'
    rw [← hinput]
    exact startsWith_of_conflict (by decide) hdrop
  · rw [hlonger rfl] at hstarts'
    exact absurd hstarts' (by decide)
  · rw [startsWith_of_conflict hconflict hstarts] at hstarts'
    exact absurd hstarts' (by decide)

theorem isSome_afterPre_of_afterPost {input : List Byte} {groups : Groups}
    (hsome : (afterPost input groups).isSome) :
    (afterPre input groups).isSome := by
  rw [afterPre_eq, Option.isSome_or, hsome, Bool.or_true]

theorem exists_postSpelling {input : List Byte}
    (hsome : ∃ literal ∈ postSpellings, startsWith literal input = true) :
    ∃ literal ∈ postSpellings, startsWith literal input = true ∧
      (literal = "r" → startsWith "rev" input = false) := by
  cases hrev : startsWith "rev" input with
  | true => exact ⟨"rev", by decide, hrev, by decide⟩
  | false =>
      obtain ⟨literal, hliteral, hstarts⟩ := hsome
      exact ⟨literal, hliteral, hstarts, fun _ => rfl⟩

/-- No spelling starts with a digit. -/
theorem startsWith_digit {literal : String} (hspelling : Spelling literal)
    {byte : Byte} (hbyte : Byte.isAsciiDigit byte = true) (rest : List Byte) :
    startsWith literal (byte :: rest) = false := by
  rw [Bool.eq_false_iff]
  intro hstarts
  obtain ⟨byte', rest', hinput, hletter⟩ := hspelling.head hstarts
  obtain ⟨rfl, -⟩ := List.cons.inj hinput
  rw [(isDigit_facts byte hbyte).1] at hletter
  exact absurd hletter (by decide)

theorem committed_afterPre : Committed afterPre where
  digit := by
    intro byte rest groups hbyte
    obtain ⟨-, hseparator, -⟩ := isDigit_facts byte hbyte
    rw [afterPre_none, committed_afterPost.digit byte rest groups hbyte]
    · intro rest' hinput
      obtain ⟨rfl, -⟩ := List.cons.inj hinput
      exact absurd hbyte (by decide)
    · intro literal hliteral
      simp only [skipSeparator, hseparator]
      exact startsWith_digit (spelling_post literal hliteral) hbyte rest
  separator := by
    intro byte rest groups groups' hbyte hsome
    have hskip : skipSeparator (byte :: rest) = rest := by
      simp [skipSeparator, hbyte]
    by_cases hspelled : ∃ literal ∈ postSpellings, startsWith literal rest = true
    · obtain ⟨literal, hliteral, hstarts, hlonger⟩ := exists_postSpelling hspelled
      obtain ⟨head, tail, rfl, hletter⟩ :=
        (spelling_post literal hliteral).head hstarts
      have hdigit := (isLetter_facts head hletter).2.1
      have hskip' := skipSeparator_of_letter hletter tail
      rw [afterPre_spelled hliteral (by rw [hskip, hstarts])
        (by rw [hskip]; exact hlonger), hskip] at hsome
      rw [List.dropWhile_cons_of_neg (by simp [hdigit]),
        afterPre_spelled hliteral (by rw [hskip', hstarts])
          (by rw [hskip']; exact hlonger), hskip']
      exact isSome_afterPost hsome _
    · apply isSome_afterPre_of_afterPost
      have hnone : ∀ literal ∈ postSpellings,
          startsWith literal (skipSeparator (byte :: rest)) = false := by
        intro literal hliteral
        rw [hskip, Bool.eq_false_iff]
        exact fun hstarts => hspelled ⟨literal, hliteral, hstarts⟩
      by_cases hdash : byte = 45 ∧ rest.takeWhile Byte.isAsciiDigit ≠ []
      · obtain ⟨rfl, hdigits⟩ := hdash
        rw [afterPre_dash hdigits] at hsome
        exact isSome_afterPost hsome groups'
      · rw [afterPre_none _ hnone] at hsome
        · exact committed_afterPost.separator byte rest groups groups' hbyte hsome
        · intro rest' hinput
          obtain ⟨rfl, rfl⟩ := List.cons.inj hinput
          by_contra hdigits
          exact hdash ⟨rfl, hdigits⟩

/-- A letter after the optional separator that starts neither a post- nor a
dev-release. -/
theorem afterPre_none_of_skip {input rest : List Byte} {byte : Byte}
    (hrest : skipSeparator input = byte :: rest) (hletter : isLetter byte = true)
    (hnone : ∀ literal ∈ ["post", "rev", "dev"],
      startsWith literal (byte :: rest) = false)
    (hr : startsWith "r" (byte :: rest) = true → ∃ byte' rest',
      rest = byte' :: rest' ∧ isLetter byte' = true ∧
        startsWith "dev" rest = false) (groups : Groups) :
    afterPre input groups = none := by
  have hdev := hnone "dev" (by decide)
  have hrev := hnone "rev" (by decide)
  cases hstarts : startsWith "r" (byte :: rest) with
  | true =>
      obtain ⟨byte', rest', rfl, hletter', hdev'⟩ := hr hstarts
      rw [afterPre_spelled (show "r" ∈ postSpellings by decide)
        (by rw [hrest, hstarts]) (by rw [hrest]; exact fun _ => hrev), hrest]
      have hdrop : (byte :: byte' :: rest').drop (ascii "r").length =
          byte' :: rest' := rfl
      have hdigit := (isLetter_facts byte' hletter').2.1
      rw [hdrop, skipSeparator_of_letter hletter',
        List.dropWhile_cons_of_neg (by simp [hdigit])]
      exact afterPost_none_of_skip (skipSeparator_of_letter hletter' rest')
        hletter' hdev' _
  | false =>
      rw [afterPre_none, afterPost_none_of_skip hrest hletter hdev]
      · rintro tail rfl
        have hskip : skipSeparator (45 :: tail) = tail := by
          simp [skipSeparator, show isSeparator 45 = true from by decide]
        rw [hskip] at hrest
        rw [hrest]
        simp [(isLetter_facts byte hletter).2.1]
      · intro literal hliteral
        rw [hrest]
        simp only [postSpellings, List.mem_cons, List.not_mem_nil,
          or_false] at hliteral
        rcases hliteral with rfl | rfl | rfl
        · exact hnone "post" (by decide)
        · exact hrev
        · exact hstarts

/-! ## Pre-releases -/

def preSpellings : List String :=
  ["a", "b", "c", "rc", "alpha", "beta", "pre", "preview"]

theorem spelling_pre : ∀ literal ∈ preSpellings, Spelling literal := by
  have hdecide : ∀ literal ∈ preSpellings,
      (ascii literal).head?.any isLetter = true := by
    decide
  exact fun literal hliteral => Spelling.of_head (hdecide literal hliteral)

def recordPreN (groups : Groups) (text : List Byte) : Groups :=
  { groups with preN := some text }

theorem afterRelease_eq (input : List Byte) (groups : Groups) :
    afterRelease input groups =
      ((spelling (fun groups text => { groups with preL := some text })
          recordPreN preSpellings).matchK afterPre (skipSeparator input)
            groups).or (afterPre input groups) := by
  rw [← matchK_spelled spelling_pre]
  rfl

theorem afterRelease_none {input : List Byte}
    (hnone : ∀ literal ∈ preSpellings,
      startsWith literal (skipSeparator input) = false) (groups : Groups) :
    afterRelease input groups = afterPre input groups := by
  rw [afterRelease_eq, matchK_spelling_none hnone, Option.none_or]

/-- A literal that starts neither a post- nor a dev-release. -/
theorem afterPre_none_of_conflict {literal : String} {input : List Byte}
    (hspelling : Spelling literal) (hstarts : startsWith literal input = true)
    (hconflict : ∀ other ∈ ["post", "rev", "dev", "r"],
      Conflict literal other = true) (groups : Groups) :
    ∃ byte rest, input = byte :: rest ∧ isLetter byte = true ∧
      afterPre (byte :: rest) groups = none := by
  obtain ⟨byte, rest, rfl, hletter⟩ := hspelling.head hstarts
  refine ⟨byte, rest, rfl, hletter, ?_⟩
  have hfalse : ∀ other ∈ ["post", "rev", "dev", "r"],
      startsWith other (byte :: rest) = false := fun other hother =>
    startsWith_of_conflict (hconflict other hother) hstarts
  apply afterPre_none_of_skip (skipSeparator_of_letter hletter rest) hletter
  · intro other hother
    exact hfalse other (by simp at hother ⊢; tauto)
  · intro hr
    rw [hfalse "r" (by decide)] at hr
    exact absurd hr (by decide)

/-- Where a pre-release is spelled, neither a post- nor a dev-release is. -/
theorem afterPre_none_of_pre {literal : String} (hliteral : literal ∈ preSpellings)
    {input : List Byte}
    (hstarts : startsWith literal (skipSeparator input) = true)
    (groups : Groups) : afterPre input groups = none := by
  have hconflicts : ∀ literal ∈ preSpellings,
      ∀ other ∈ ["post", "rev", "dev"], Conflict literal other = true := by
    decide
  have hrc : ∀ literal ∈ preSpellings,
      literal = "rc" ∨ Conflict literal "r" = true := by
    decide
  obtain ⟨byte, rest, hrest, hletter⟩ :=
    (spelling_pre literal hliteral).head hstarts
  rw [hrest] at hstarts
  apply afterPre_none_of_skip hrest hletter
  · intro other hother
    exact startsWith_of_conflict (hconflicts literal hliteral other hother)
      hstarts
  · intro hr
    rcases hrc literal hliteral with rfl | hconflict
    · have hdrop : startsWith "c" ((byte :: rest).drop (ascii "r").length) =
          true :=
        startsWith_drop (by decide) (by decide) hr hstarts
      have htail : (byte :: rest).drop (ascii "r").length = rest := rfl
      rw [htail] at hdrop
      obtain ⟨byte', rest', rfl, hletter'⟩ :=
        (spelling_pre "c" (by decide)).head hdrop
      exact ⟨byte', rest', rfl, hletter',
        startsWith_of_conflict (by decide) hdrop⟩
    · rw [startsWith_of_conflict hconflict hstarts] at hr
      exact absurd hr (by decide)

/-- A spelled pre-release; the longest spelling counts. -/
theorem afterRelease_spelled {literal : String}
    (hliteral : literal ∈ preSpellings) {input : List Byte}
    (hstarts : startsWith literal (skipSeparator input) = true)
    (hlongest : ∀ other ∈ preSpellings,
      startsWith other (skipSeparator input) = true →
        (ascii other).length ≤ (ascii literal).length)
    (groups : Groups) :
    afterRelease input groups =
      afterPre ((skipSeparator ((skipSeparator input).drop
          (ascii literal).length)).dropWhile Byte.isAsciiDigit)
        (recordNumber recordPreN
          (skipSeparator ((skipSeparator input).drop (ascii literal).length))
          { groups with
            preL := some ((skipSeparator input).take
              (ascii literal).length) }) := by
  have hpairs : ∀ literal ∈ preSpellings, ∀ other ∈ preSpellings,
      other ≠ literal → (ascii other).length ≤ (ascii literal).length →
        Conflict literal other = true ∨
          ∃ rest ∈ ["lpha", "eta", "view"],
            (ascii literal).drop (ascii other).length = ascii rest := by
    decide
  have hrests : ∀ rest ∈ ["lpha", "eta", "view"],
      (ascii rest).head?.any isLetter = true ∧
        ∀ other ∈ ["post", "rev", "dev", "r"], Conflict rest other = true := by
    decide
  rw [afterRelease_eq, afterPre_none_of_pre hliteral hstarts, Option.or_none,
    matchK_spelling_commit committed_afterPre hliteral hstarts]
  intro other hother hne hstarts'
  have hlength := hlongest other hother hstarts'
  rcases hpairs literal hliteral other hother hne hlength with
    hconflict | ⟨rest, hrest, hdrop⟩
  · rw [startsWith_of_conflict hconflict hstarts] at hstarts'
    exact absurd hstarts' (by decide)
  · obtain ⟨hhead, hconflict⟩ := hrests rest hrest
    have hspelling : Spelling rest := Spelling.of_head hhead
    have hstarts'' := startsWith_drop hdrop hlength hstarts' hstarts
    obtain ⟨byte, tail, hinput, hletter⟩ := hspelling.head hstarts''
    refine ⟨byte, tail, hinput, hletter, fun groups => ?_⟩
    obtain ⟨byte', tail', hinput', -, hnone⟩ :=
      afterPre_none_of_conflict hspelling hstarts'' hconflict groups
    rw [hinput] at hinput'
    rw [hinput']
    exact hnone

/-- Without a letter or `-N`, only the local part can follow. -/
theorem afterRelease_eq_afterDev {input : List Byte}
    (hletter : ∀ byte rest, skipSeparator input = byte :: rest →
      isLetter byte = false)
    (hdash : ∀ rest, input = 45 :: rest →
      rest.takeWhile Byte.isAsciiDigit = []) (groups : Groups) :
    afterRelease input groups = afterDev input groups := by
  have hnone : ∀ literal, Spelling literal →
      startsWith literal (skipSeparator input) = false := by
    intro literal hspelling
    rw [Bool.eq_false_iff]
    intro hstarts
    obtain ⟨byte, rest, hrest, htrue⟩ := hspelling.head hstarts
    rw [hletter byte rest hrest] at htrue
    exact absurd htrue (by decide)
  rw [afterRelease_none fun literal hliteral =>
      hnone literal (spelling_pre literal hliteral),
    afterPre_none hdash fun literal hliteral =>
      hnone literal (spelling_post literal hliteral),
    afterPost_none (hnone _ (spelling_dev _ (by simp)))]

theorem afterRelease_nil (groups : Groups) : afterRelease [] groups = some groups := by
  rw [afterRelease_eq_afterDev (by simp [skipSeparator]) (by simp)]
  unfold afterDev localPart
  rw [Regex.matchK_opt, Regex.matchK_seq, matchK_text,
    show startsWith "+" [] = false from by decide]
  rfl

/-- A byte that is neither a letter nor a separator, white space or `+` ends
the match. -/
theorem afterRelease_none_of_byte {byte : Byte} (hletter : isLetter byte = false)
    (hseparator : isSeparator byte = false)
    (hspace : Byte.isAsciiWhitespace byte = false) (hplus : byte ≠ 43)
    (rest : List Byte) (groups : Groups) :
    afterRelease (byte :: rest) groups = none := by
  rw [afterRelease_eq_afterDev, afterDev_none hspace hplus]
  · intro byte' rest' hrest
    simp only [skipSeparator, hseparator] at hrest
    obtain ⟨rfl, -⟩ := List.cons.inj hrest
    exact hletter
  · intro rest' hinput
    obtain ⟨rfl, -⟩ := List.cons.inj hinput
    exact absurd hseparator (by decide)

/-- A dot that no letter follows ends the match. -/
theorem afterRelease_none_of_dot {byte : Byte} (hletter : isLetter byte = false)
    (rest : List Byte) (groups : Groups) :
    afterRelease (46 :: byte :: rest) groups = none := by
  rw [afterRelease_eq_afterDev, afterDev_none (by decide) (by decide)]
  · intro byte' rest' hrest
    simp only [skipSeparator, show isSeparator 46 = true from by decide,
      if_true] at hrest
    obtain ⟨rfl, -⟩ := List.cons.inj hrest
    exact hletter
  · intro rest' hinput
    exact absurd (List.cons.inj hinput).1 (by decide)

theorem afterRelease_digit {byte : Byte} (hbyte : Byte.isAsciiDigit byte = true)
    (rest : List Byte) (groups : Groups) :
    afterRelease (byte :: rest) groups = none := by
  obtain ⟨hletter, hseparator, hspace, hplus⟩ := isDigit_facts byte hbyte
  exact afterRelease_none_of_byte hletter hseparator hspace hplus rest groups

/-! ## The release -/

/-- The dotted numbers after the first. -/
def dotted : Pattern := .star (.seq (text ".") digits)

theorem startsWith_dot (byte : Byte) (rest : List Byte) :
    startsWith "." (byte :: rest) = decide (byte = 46) := by
  have htext : ascii "." = [46] := by decide
  have hbytes : ∀ b : Byte, Byte.eqIgnoreAsciiCase 46 b = decide (b = 46) := by
    decide +kernel
  simp [startsWith, htext, Regex.prefixBy, hbytes]

section Dotted

variable {β : Type} {next : Regex.Continuation Byte Groups β}
  (hdigit : ∀ byte rest groups, Byte.isAsciiDigit byte = true →
    next (byte :: rest) groups = none)

include hdigit

theorem matchK_dotted_digit {byte : Byte} (hbyte : Byte.isAsciiDigit byte = true)
    (rest : List Byte) (groups : Groups) :
    dotted.matchK next (byte :: rest) groups = none := by
  have hdot : byte ≠ 46 := by
    rintro rfl
    exact absurd hbyte (by decide)
  unfold dotted
  rw [Regex.matchK_star, hdigit byte rest groups hbyte, Regex.matchK_seq,
    matchK_text, startsWith_dot]
  simp [hdot]

/-- A dot and a number belong to the release. -/
theorem matchK_dotted_dot
    (hdot : ∀ byte rest groups, Byte.isAsciiDigit byte = true →
      next (46 :: byte :: rest) groups = none) {rest : List Byte}
    (hrest : rest.takeWhile Byte.isAsciiDigit ≠ []) (groups : Groups) :
    dotted.matchK next (46 :: rest) groups =
      dotted.matchK next (rest.dropWhile Byte.isAsciiDigit) groups := by
  obtain ⟨byte, tail, rfl, hbyte⟩ : ∃ byte tail, rest = byte :: tail ∧
      Byte.isAsciiDigit byte = true := by
    cases rest with
    | nil => simp at hrest
    | cons byte tail =>
        refine ⟨byte, tail, rfl, ?_⟩
        by_contra hbyte
        simp [hbyte] at hrest
  have hlength := List.length_dropWhile_le Byte.isAsciiDigit (byte :: tail)
  rw [dotted, Regex.matchK_star, hdot byte tail groups hbyte, Option.or_none,
    Regex.matchK_seq, matchK_text, startsWith_dot]
  simp only [decide_true, if_true]
  unfold digits
  rw [Regex.matchK_plus_symbol]
  · rw [show (46 :: byte :: tail).drop (ascii ".").length = byte :: tail from rfl,
      if_neg hrest, if_pos]
    rw [List.length_cons]
    omega
  · intro byte' rest' groups' hbyte'
    have hnone := matchK_dotted_digit hdigit hbyte' rest' groups'
    rw [dotted, digits] at hnone
    rw [hnone]
    simp

theorem matchK_dotted_none {input : List Byte}
    (hinput : ∀ rest, input = 46 :: rest →
      rest.takeWhile Byte.isAsciiDigit = []) (groups : Groups) :
    dotted.matchK next input groups = next input groups := by
  have hstar : ∀ byte rest groups, Byte.isAsciiDigit byte = true →
      (fun rest groups => if rest.length < input.length then
        dotted.matchK next rest groups else none) (byte :: rest) groups =
          none := by
    intro byte rest groups hbyte
    simp only [matchK_dotted_digit hdigit hbyte rest groups]
    simp
  rw [dotted, Regex.matchK_star, Regex.matchK_seq, matchK_text]
  unfold digits
  rw [dotted, digits] at hstar
  rw [Regex.matchK_plus_symbol hstar]
  cases input with
  | nil => rfl
  | cons byte rest =>
      rw [startsWith_dot]
      by_cases hbyte : byte = 46
      · have hempty := hinput rest (by rw [hbyte])
        have hdrop : (byte :: rest).drop (ascii ".").length = rest := rfl
        rw [hdrop, if_pos hempty]
        simp
      · simp [hbyte]

end Dotted

/-- The rest of the expression after the epoch, once `input` is where the
release starts. -/
def closeRelease (input : List Byte) :
    Regex.Continuation Byte Groups Groups := fun rest groups =>
  afterRelease rest { groups with
    release := some (input.take (input.length - rest.length)) }

theorem closeRelease_digit (input : List Byte) (byte : Byte) (rest : List Byte)
    (groups : Groups) (hbyte : Byte.isAsciiDigit byte = true) :
    closeRelease input (byte :: rest) groups = none :=
  afterRelease_digit hbyte rest _

theorem closeRelease_dot (input : List Byte) (byte : Byte) (rest : List Byte)
    (groups : Groups) (hbyte : Byte.isAsciiDigit byte = true) :
    closeRelease input (46 :: byte :: rest) groups = none :=
  afterRelease_none_of_dot (isDigit_facts byte hbyte).1 rest _

/-- The release and everything after it. -/
def fromRelease : Regex.Continuation Byte Groups Groups :=
  release.matchK afterRelease

theorem fromRelease_eq (input : List Byte) (groups : Groups) :
    fromRelease input groups =
      if input.takeWhile Byte.isAsciiDigit = [] then none
      else dotted.matchK (closeRelease input)
        (input.dropWhile Byte.isAsciiDigit) groups := by
  have hdigit : ∀ byte rest groups, Byte.isAsciiDigit byte = true →
      dotted.matchK (closeRelease input) (byte :: rest) groups = none :=
    fun byte rest groups hbyte =>
      matchK_dotted_digit (closeRelease_digit input) hbyte rest groups
  exact Regex.matchK_plus_symbol hdigit input groups

/-! ## The epoch and the leading `v` -/

def fromEpoch : Regex.Continuation Byte Groups Groups :=
  epoch.matchK fromRelease

theorem startsWith_bang (byte : Byte) (rest : List Byte) :
    startsWith "!" (byte :: rest) = decide (byte = 33) := by
  have htext : ascii "!" = [33] := by decide
  have hbytes : ∀ b : Byte, Byte.eqIgnoreAsciiCase 33 b = decide (b = 33) := by
    decide +kernel
  simp [startsWith, htext, Regex.prefixBy, hbytes]

theorem fromEpoch_none {input : List Byte}
    (hdigits : input.takeWhile Byte.isAsciiDigit = []) (groups : Groups) :
    fromEpoch input groups = none := by
  have hfirst : (Regex.capture (fun groups text =>
      { groups with epoch := some text }) digits).matchK
        ((text "!").matchK fromRelease) input groups = none := by
    unfold digits
    rw [Regex.matchK_capture_plus_symbol, if_pos hdigits]
    intro byte rest groups hbyte
    rw [matchK_text, startsWith_bang]
    have hbang : byte ≠ 33 := by
      rintro rfl
      exact absurd hbyte (by decide)
    simp [hbang]
  unfold fromEpoch epoch
  rw [Regex.matchK_opt, Regex.matchK_seq, hfirst, fromRelease_eq, if_pos hdigits]
  rfl

/-- Where `!` follows the first number, that number is the epoch; else it is
the first release number. -/
theorem fromEpoch_eq {input : List Byte}
    (hdigits : input.takeWhile Byte.isAsciiDigit ≠ []) (groups : Groups) :
    fromEpoch input groups =
      if startsWith "!" (input.dropWhile Byte.isAsciiDigit) then
        fromRelease ((input.dropWhile Byte.isAsciiDigit).drop 1)
          { groups with epoch := some (input.takeWhile Byte.isAsciiDigit) }
      else
        dotted.matchK (closeRelease input)
          (input.dropWhile Byte.isAsciiDigit) groups := by
  have hfirst : (Regex.capture (fun groups text =>
      { groups with epoch := some text }) digits).matchK
        ((text "!").matchK fromRelease) input groups =
          (text "!").matchK fromRelease (input.dropWhile Byte.isAsciiDigit)
            { groups with
              epoch := some (input.takeWhile Byte.isAsciiDigit) } := by
    unfold digits
    rw [Regex.matchK_capture_plus_symbol, if_neg hdigits]
    intro byte rest groups hbyte
    rw [matchK_text, startsWith_bang]
    have hbang : byte ≠ 33 := by
      rintro rfl
      exact absurd hbyte (by decide)
    simp [hbang]
  unfold fromEpoch epoch
  rw [Regex.matchK_opt, Regex.matchK_seq, hfirst, matchK_text,
    fromRelease_eq input, if_neg hdigits]
  cases hstarts : startsWith "!" (input.dropWhile Byte.isAsciiDigit) with
  | false => rfl
  | true =>
      cases hrest : input.dropWhile Byte.isAsciiDigit with
      | nil =>
          rw [hrest] at hstarts
          exact absurd hstarts (by decide)
      | cons byte rest =>
          rw [hrest, startsWith_bang, decide_eq_true_eq] at hstarts
          subst hstarts
          rw [matchK_dotted_none (closeRelease_digit input)]
          · have hnone : closeRelease input (33 :: rest) groups = none :=
              afterRelease_none_of_byte (by decide) (by decide) (by decide)
                (by decide) rest _
            rw [hnone, Option.or_none]
            rfl
          · intro rest' hinput
            exact absurd (List.cons.inj hinput).1 (by decide)

/-- The stages of the match, put together. -/
theorem matchK_suffixes :
    Regex.matchK (.seq epoch <| .seq release <| .seq pre <| .seq post <|
      .seq dev localPart) atEnd = fromEpoch := by
  have hdev : (Regex.seq dev localPart).matchK atEnd = afterPost := by
    funext input groups
    rw [Regex.matchK_seq, afterPost, afterDev]
  have hpost : (Regex.seq post (.seq dev localPart)).matchK atEnd =
      afterPre := by
    funext input groups
    rw [Regex.matchK_seq, hdev, afterPre]
  have hpre : (Regex.seq pre <| .seq post <| .seq dev localPart).matchK atEnd =
      afterRelease := by
    funext input groups
    rw [Regex.matchK_seq, hpost, afterRelease]
  have hrelease : (Regex.seq release <| .seq pre <| .seq post <|
      .seq dev localPart).matchK atEnd = fromRelease := by
    funext input groups
    rw [Regex.matchK_seq, hpre, fromRelease]
  funext input groups
  rw [Regex.matchK_seq, hrelease, fromEpoch]

theorem matchK_version {input : List Byte} (groups : Groups) :
    version.matchK atEnd input groups =
      fromEpoch (if startsWith "v" input then input.drop 1 else input) groups := by
  rw [version, Regex.matchK_seq, matchK_suffixes, Regex.matchK_opt, matchK_text]
  cases hstarts : startsWith "v" input with
  | false => rfl
  | true =>
      obtain ⟨byte, rest, rfl, hletter⟩ :=
        (Spelling.of_head (by decide)).head hstarts
      have hdigits : (byte :: rest).takeWhile Byte.isAsciiDigit = [] := by
        simp [(isLetter_facts byte hletter).2.1]
      rw [fromEpoch_none hdigits, Option.or_none]
      rfl

end Grammar

end Uv.Pep440
