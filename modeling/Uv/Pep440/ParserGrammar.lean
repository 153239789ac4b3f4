import Uv.Pep440.Grammar

/-!
# The parser reads the grammar

Every component parser agrees with its part of the expression: both stop at the
same byte, and what the parser stores is what the groups read as.  Together
with the facts about the expression this gives the parser's specification,
`outcome_parsePattern`.
-/

namespace Uv.Pep440

open Uv.Core Grammar

theorem startsWithIgnoreAsciiCase_eq (needle haystack : List Byte) :
    startsWithIgnoreAsciiCase needle haystack =
      Regex.prefixBy Byte.eqIgnoreAsciiCase needle haystack := by
  induction needle generalizing haystack with
  | nil => simp [startsWithIgnoreAsciiCase, Regex.prefixBy]
  | cons byte needle ih =>
      cases haystack with
      | nil => simp [startsWithIgnoreAsciiCase, Regex.prefixBy]
      | cons byte' haystack =>
          rw [Regex.prefixBy, ← ih]
          cases hbyte : Byte.eqIgnoreAsciiCase byte byte' <;>
            simp [startsWithIgnoreAsciiCase, hbyte]

/-! ## Numbers -/

theorem isAsciiDigit_iff (byte : Byte) :
    Byte.isAsciiDigit byte = true ↔ ¬ (byte.val < 48 ∨ byte.val - 48 > 9) := by
  unfold Byte.isAsciiDigit
  simp only [Bool.and_eq_true, decide_eq_true_eq]
  omega

private theorem le_foldl_decimal (digits : List Byte) (n : ℕ) :
    n ≤ digits.foldl (fun n byte => n * 10 + (byte.val - 48)) n := by
  induction digits generalizing n with
  | nil => simp
  | cons byte digits ih =>
      rw [List.foldl_cons]
      have hstep := ih (n * 10 + (byte.val - 48))
      omega

private theorem parseU64Loop_eq (bytes : List Byte) {digits : List Byte}
    (hdigits : ∀ byte ∈ digits, Byte.isAsciiDigit byte = true) (n : ℕ)
    (hn : n ≤ u64Max) :
    parseU64Loop bytes digits n =
      if digits.foldl (fun n byte => n * 10 + (byte.val - 48)) n ≤ u64Max then
        .ok (digits.foldl (fun n byte => n * 10 + (byte.val - 48)) n)
      else .error (.numberTooBig bytes) := by
  induction digits generalizing n with
  | nil => simp [parseU64Loop, hn]
  | cons byte digits ih =>
      have hbyte := (isAsciiDigit_iff byte).mp (hdigits byte (by simp))
      have hgrow := le_foldl_decimal digits (n * 10 + (byte.val - 48))
      rw [parseU64Loop, if_neg hbyte, List.foldl_cons]
      split
      · rw [if_neg (by omega)]
      · exact ih (fun b hb => hdigits b (by simp [hb])) _ (by omega)

/-- A run of digits is read as its value, if that fits. -/
theorem parseU64_eq {digits : List Byte}
    (hdigits : ∀ byte ∈ digits, Byte.isAsciiDigit byte = true) :
    parseU64 digits =
      match number digits with
      | some n => .ok n
      | none => .error (.numberTooBig digits) := by
  unfold parseU64 number decimal
  rw [parseU64Loop_eq digits hdigits 0 (Nat.zero_le _)]
  split <;> rfl

private theorem parseU64Loop_error (bytes : List Byte) {text : List Byte}
    (htext : ∃ byte ∈ text, Byte.isAsciiDigit byte = false) (n : ℕ) :
    ∃ err, parseU64Loop bytes text n = .error err := by
  induction text generalizing n with
  | nil => simp at htext
  | cons byte text ih =>
      rw [parseU64Loop]
      split
      · exact ⟨_, rfl⟩
      · rename_i hbyte
        split
        · exact ⟨_, rfl⟩
        · apply ih
          obtain ⟨byte', hmem, hfalse⟩ := htext
          rcases List.mem_cons.mp hmem with rfl | hmem
          · rw [(isAsciiDigit_iff byte').mpr hbyte] at hfalse
            exact absurd hfalse (by decide)
          · exact ⟨byte', hmem, hfalse⟩

theorem localSegment_eq (text : List Byte) :
    Parser.localSegment text = Groups.segment text := by
  unfold Parser.localSegment Groups.segment
  by_cases hdigits : text.all Byte.isAsciiDigit = true
  · rw [parseU64_eq (List.all_eq_true.mp hdigits)]
    by_cases hvalue : decimal text ≤ u64Max
    · simp [number, hvalue, hdigits]
    · simp [number, hvalue]
  · rw [if_neg fun hboth => hdigits hboth.1]
    have hbyte : ∃ byte ∈ text, Byte.isAsciiDigit byte = false := by
      simpa using hdigits
    obtain ⟨err, herr⟩ := parseU64Loop_error text hbyte 0
    unfold parseU64
    rw [herr]

namespace Parser

/-! ## The cursor -/

theorem rest_advance (parser : Parser) (count : ℕ) :
    (parser.advance count).rest = parser.rest.drop count := by
  unfold rest advance
  rw [List.drop_drop]

theorem isDone_iff (parser : Parser) : parser.isDone = true ↔ parser.rest = [] := by
  unfold isDone rest
  rw [decide_eq_true_eq, List.drop_eq_nil_iff]

theorem bumpIf_eq (parser : Parser) {literal : String}
    (hliteral : ascii literal ≠ []) :
    parser.bumpIf (ascii literal) =
      if startsWith literal parser.rest then
        some (parser.advance (ascii literal).length)
      else none := by
  unfold bumpIf startsWith
  rw [startsWithIgnoreAsciiCase_eq]
  by_cases hdone : parser.isDone = true
  · rw [if_pos hdone, (isDone_iff parser).mp hdone]
    cases htext : ascii literal with
    | nil => exact absurd htext hliteral
    | cons byte rest => rfl
  · rw [if_neg hdone]

theorem skipByteSet_eq (parser : Parser) :
    ∃ count, parser.skipByteSet separator = parser.advance count ∧
      (parser.advance count).rest = skipSeparator parser.rest := by
  unfold skipByteSet bumpIfByteSet
  cases hrest : parser.rest with
  | nil => exact ⟨0, rfl, by rw [rest_advance, hrest]; rfl⟩
  | cons byte rest =>
      cases hbyte : separator.contains byte with
      | true =>
          refine ⟨1, by simp only [hbyte, if_true], ?_⟩
          rw [rest_advance, hrest]
          simp only [skipSeparator, isSeparator, hbyte, if_true]
          rfl
      | false =>
          refine ⟨0, by simp only [hbyte]; rfl, ?_⟩
          rw [rest_advance, hrest]
          simp only [skipSeparator, isSeparator, hbyte]
          rfl

/-- The digits at the start of the input, if there are any. -/
def leadingDigits (input : List Byte) : Option (List Byte) :=
  if input.takeWhile Byte.isAsciiDigit = [] then none
  else some (input.takeWhile Byte.isAsciiDigit)

private theorem drop_length_takeWhile {α : Type} (accepts : α → Bool)
    (input : List α) :
    input.drop (input.takeWhile accepts).length = input.dropWhile accepts := by
  induction input with
  | nil => rfl
  | cons head input ih =>
      cases hhead : accepts head <;> simp [hhead, ih]

theorem rest_bumpWhile (parser : Parser) (accepts : Byte → Bool) :
    (parser.bumpWhile accepts).2.rest = parser.rest.dropWhile accepts := by
  unfold bumpWhile
  rw [rest_advance, drop_length_takeWhile]

/-- A number is read to the end of its digits, or does not fit. -/
theorem parseNumber_cases (parser : Parser) :
    (leadingDigits parser.rest = none ∧ parser.parseNumber = .ok (none, parser)) ∨
      (∃ digits n count, leadingDigits parser.rest = some digits ∧
        number digits = some n ∧
        parser.parseNumber = .ok (some n, parser.advance count) ∧
        (parser.advance count).rest =
          parser.rest.dropWhile Byte.isAsciiDigit) ∨
      (∃ digits err, leadingDigits parser.rest = some digits ∧
        number digits = none ∧ parser.parseNumber = .error err) := by
  have hbump := rest_bumpWhile parser Byte.isAsciiDigit
  unfold parseNumber leadingDigits
  unfold bumpWhile at hbump ⊢
  by_cases hempty : parser.rest.takeWhile Byte.isAsciiDigit = []
  · left
    simp only [hempty, if_true]
    exact ⟨trivial, rfl⟩
  · right
    have hdigits : ∀ byte ∈ parser.rest.takeWhile Byte.isAsciiDigit,
        Byte.isAsciiDigit byte = true := fun byte hbyte =>
      List.mem_takeWhile_imp hbyte
    simp only [List.isEmpty_iff, hempty, if_false, parseU64_eq hdigits]
    cases hnumber : number (parser.rest.takeWhile Byte.isAsciiDigit) with
    | some n => exact .inl ⟨_, n, _, rfl, hnumber, rfl, hbump⟩
    | none => exact .inr ⟨_, _, rfl, hnumber, rfl⟩

/-- The optional separator and number after a spelling. -/
theorem parseSuffixNumber_cases (parser : Parser) :
    (∃ n count,
        numberOrZero (leadingDigits (skipSeparator parser.rest)) = some n ∧
        parser.parseSuffixNumber = .ok (n, parser.advance count) ∧
        (parser.advance count).rest =
          (skipSeparator parser.rest).dropWhile Byte.isAsciiDigit) ∨
      (∃ err,
        numberOrZero (leadingDigits (skipSeparator parser.rest)) = none ∧
        parser.parseSuffixNumber = .error err) := by
  obtain ⟨skip, hskip, hrest⟩ := skipByteSet_eq parser
  unfold parseSuffixNumber
  rw [hskip, ← hrest]
  rcases parseNumber_cases (parser.advance skip) with
    ⟨hdigits, hparse⟩ | ⟨digits, n, count, hdigits, hnumber, hparse, hafter⟩ |
      ⟨digits, err, hdigits, hnumber, hparse⟩
  · refine .inl ⟨0, skip, by rw [hdigits]; rfl, by rw [hparse]; rfl, ?_⟩
    unfold leadingDigits at hdigits
    split at hdigits
    · rename_i hempty
      rw [eq_comm, List.dropWhile_eq_self_iff]
      intro hlength hdigit
      rw [List.takeWhile_eq_nil_iff] at hempty
      exact hempty hlength hdigit
    · simp at hdigits
  · refine .inl ⟨n, skip + count, by rw [hdigits]; exact hnumber, ?_, ?_⟩
    · rw [hparse]
      simp only [Option.getD_some, advance, Nat.add_assoc]
    · rw [← hafter, rest_advance, rest_advance, rest_advance, List.drop_drop]
  · exact .inr ⟨err, by rw [hdigits]; exact hnumber, by rw [hparse]⟩

/-- Recording an optional number in a group that is still unset sets it. -/
theorem recordNumber_eq (record : Groups → List Byte → Groups)
    (set : Groups → Option (List Byte) → Groups) (input : List Byte)
    (groups : Groups) (hset : ∀ text, record groups text = set groups (some text))
    (hnone : set groups none = groups) :
    recordNumber record input groups = set groups (leadingDigits input) := by
  unfold recordNumber leadingDigits
  split
  · exact hnone.symm
  · exact hset _

/-! ## What the parser has read so far -/

/-- The parser's fields are what the groups read as. -/
structure Agrees (parser : Parser) (groups : Groups) : Prop where
  epoch : groups.readEpoch = some parser.epoch
  release : groups.readRelease = some parser.release
  pre : groups.readPre = some parser.pre
  post : groups.readPost = some parser.post
  dev : groups.readDev = some parser.dev
  wildcard : parser.wildcard = false

/-- The components of a successful parse of a verbatim version. -/
def outcome : Except PatternErrorKind VersionPattern → Option VersionFull
  | .ok vpat => if vpat.wildcard then none else some vpat.version.makeFull
  | .error _ => none

theorem Agrees.advance {parser : Parser} {groups : Groups}
    (hagrees : Agrees parser groups) (count : ℕ) :
    Agrees (parser.advance count) groups :=
  ⟨hagrees.epoch, hagrees.release, hagrees.pre, hagrees.post, hagrees.dev,
    hagrees.wildcard⟩

theorem makeFull_intoPattern (parser : Parser) :
    parser.intoPattern.version.makeFull = {
      epoch := parser.epoch
      release := parser.release
      pre := parser.pre
      post := parser.post
      dev := parser.dev
      localVersion := .segments parser.localSegments
      min := none
      max := none } := by
  simp [intoPattern, Version.releaseOnly]

theorem components_eq {parser : Parser} {groups : Groups}
    (hagrees : Agrees parser groups)
    (hlocal : groups.readLocal = parser.localSegments) :
    groups.components = some parser.intoPattern.version.makeFull := by
  rw [makeFull_intoPattern]
  simp [Groups.components, hagrees.epoch, hagrees.release, hagrees.pre,
    hagrees.post, hagrees.dev, hlocal]

theorem parseEnd_spec {parser : Parser} {groups : Groups}
    (hagrees : Agrees parser groups)
    (hlocal : groups.readLocal = parser.localSegments) :
    outcome parser.parseEnd =
      (atEnd parser.rest groups).bind Groups.components := by
  have hrest := rest_bumpWhile parser Byte.isAsciiWhitespace
  have hdone := isDone_iff (parser.bumpWhile Byte.isAsciiWhitespace).2
  rw [hrest, List.dropWhile_eq_nil_iff] at hdone
  unfold parseEnd atEnd
  by_cases hspace : parser.rest.all Byte.isAsciiWhitespace = true
  · have hall := List.all_eq_true.mp hspace
    simp only [hdone.mpr hall, hspace, if_true, Option.bind_some]
    rw [components_eq hagrees hlocal]
    have hpattern : (parser.bumpWhile Byte.isAsciiWhitespace).2.intoPattern =
        parser.intoPattern := rfl
    have hwildcard : parser.intoPattern.wildcard = false := hagrees.wildcard
    simp only [outcome, hpattern, hwildcard]
    rfl
  · have hnot : (parser.bumpWhile Byte.isAsciiWhitespace).2.isDone ≠ true :=
      fun htrue => hspace (List.all_eq_true.mpr (hdone.mp htrue))
    simp only [hnot, hspace]
    rfl

/-! ## Numbers that do not fit -/

section Overflow

variable (property : Groups → Prop)

/-- Components that are lost stay lost in the rest of the match. -/
theorem matchK_bind_none {next : Regex.Continuation Byte Groups Groups}
    (hnext : ∀ input groups, property groups →
      (next input groups).bind Groups.components = none) {body : Pattern}
    (hkeeps : body.Keeps property) (input : List Byte) {groups : Groups}
    (hgroups : property groups) :
    (body.matchK next input groups).bind Groups.components = none := by
  cases hmatch : body.matchK next input groups with
  | none => rfl
  | some result =>
      obtain ⟨rest, groups', hderives, hresult⟩ := Regex.derives_of_matchK hmatch
      have hnone := hnext rest groups' (hderives.keeps hkeeps hgroups)
      rw [hresult] at hnone
      exact hnone

theorem keeps_spelled {recordL recordN : Groups → List Byte → Groups}
    {spellings : List String}
    (hrecordL : ∀ groups text, property groups → property (recordL groups text))
    (hrecordN : ∀ groups text, property groups → property (recordN groups text)) :
    (spelled recordL recordN spellings).Keeps property := by
  refine ⟨⟨trivial, trivial⟩, ?_, ⟨trivial, trivial⟩,
    ⟨⟨trivial, trivial⟩, hrecordN⟩, trivial⟩
  apply Regex.keeps_alternatives
  intro body hbody
  obtain ⟨literal, -, rfl⟩ := List.mem_map.mp hbody
  exact ⟨Regex.keeps_literal property _ _, hrecordL⟩

variable (hlost : ∀ groups, property groups → groups.components = none)
  (hlocal : ∀ groups text, property groups →
    property { groups with localText := some text })

include hlost hlocal

theorem afterDev_bind_none (input : List Byte) {groups : Groups}
    (hgroups : property groups) :
    (afterDev input groups).bind Groups.components = none := by
  refine matchK_bind_none property (fun rest groups hgroups => ?_) ?_ input hgroups
  · unfold atEnd
    split
    · exact hlost groups hgroups
    · rfl
  · exact ⟨⟨Regex.keeps_literal property _ _,
      ⟨⟨⟨trivial, trivial⟩, trivial, trivial, trivial⟩, hlocal⟩⟩, trivial⟩

variable (hdev : ∀ groups text, property groups →
  property { groups with devL := some text } ∧
    property { groups with devN := some text })

include hdev

theorem afterPost_bind_none (input : List Byte) {groups : Groups}
    (hgroups : property groups) :
    (afterPost input groups).bind Groups.components = none := by
  refine matchK_bind_none property (fun rest groups hgroups => ?_) ?_ input hgroups
  · exact afterDev_bind_none property hlost hlocal rest hgroups
  · exact ⟨keeps_spelled property (fun groups text hgroups => (hdev groups text hgroups).1)
      (fun groups text hgroups => (hdev groups text hgroups).2), trivial⟩

variable (hpost : ∀ groups text, property groups →
  property { groups with postN1 := some text } ∧
    property { groups with postL := some text } ∧
    property { groups with postN2 := some text })

include hpost

theorem afterPre_bind_none (input : List Byte) {groups : Groups}
    (hgroups : property groups) :
    (afterPre input groups).bind Groups.components = none := by
  refine matchK_bind_none property (fun rest groups hgroups => ?_) ?_ input hgroups
  · exact afterPost_bind_none property hlost hlocal hdev rest hgroups
  · exact ⟨⟨⟨Regex.keeps_literal property _ _, ⟨trivial, trivial⟩,
        fun groups text hgroups => (hpost groups text hgroups).1⟩,
      keeps_spelled property (fun groups text hgroups => (hpost groups text hgroups).2.1)
        (fun groups text hgroups => (hpost groups text hgroups).2.2)⟩, trivial⟩

variable (hpre : ∀ groups text, property groups →
  property { groups with preL := some text } ∧
    property { groups with preN := some text })

include hpre

theorem afterRelease_bind_none (input : List Byte) {groups : Groups}
    (hgroups : property groups) :
    (afterRelease input groups).bind Groups.components = none := by
  refine matchK_bind_none property (fun rest groups hgroups => ?_) ?_ input hgroups
  · exact afterPre_bind_none property hlost hlocal hdev hpost rest hgroups
  · exact ⟨keeps_spelled property (fun groups text hgroups => (hpre groups text hgroups).1)
      (fun groups text hgroups => (hpre groups text hgroups).2), trivial⟩

end Overflow

/-! ## The local part -/

theorem isAlphanumeric_facts (byte : Byte)
    (hbyte : Byte.isAsciiAlphanumeric byte = true) :
    isSeparator byte = false ∧ Byte.isAsciiWhitespace byte = false := by
  revert byte
  decide +kernel

section LocalText

variable {β : Type} {next : Regex.Continuation Byte Groups β}
  (halnum : ∀ byte rest groups, Byte.isAsciiAlphanumeric byte = true →
    next (byte :: rest) groups = none)
  (hseparator : ∀ byte rest groups, isSeparator byte = true →
    next (byte :: rest) groups = none)

include halnum hseparator

/-- A segment is followed by a separator and another segment, or by the end of
the local part. -/
theorem matchK_localText (input : List Byte) (groups : Groups) :
    localText.matchK next input groups =
      if input.takeWhile Byte.isAsciiAlphanumeric = [] then none
      else
        match input.dropWhile Byte.isAsciiAlphanumeric with
        | [] => next [] groups
        | byte :: rest =>
            if isSeparator byte then localText.matchK next rest groups
            else next (byte :: rest) groups := by
  have hstar : ∀ byte rest groups, Byte.isAsciiAlphanumeric byte = true →
      (Regex.star (.seq (.symbol isSeparator)
        (.plus (.symbol Byte.isAsciiAlphanumeric)))).matchK next (byte :: rest)
          groups = none := by
    intro byte rest groups hbyte
    rw [Regex.matchK_star, halnum byte rest groups hbyte]
    simp [Regex.matchK, (isAlphanumeric_facts byte hbyte).1]
  unfold localText
  rw [Regex.matchK, Regex.matchK_plus_symbol hstar]
  split
  · rfl
  · cases hrest : input.dropWhile Byte.isAsciiAlphanumeric with
    | nil =>
        rw [Regex.matchK_star]
        simp [Regex.matchK]
    | cons byte rest =>
        rw [Regex.matchK_star]
        by_cases hbyte : isSeparator byte = true
        · rw [hseparator byte rest groups hbyte, Option.or_none,
            Regex.matchK_seq, Regex.matchK_symbol_cons, if_pos hbyte]
          simp only [hbyte, if_true]
          rw [Regex.matchK_seq, Regex.matchK_plus_symbol hstar,
            Regex.matchK_plus_symbol]
          · split
            · rfl
            · rw [if_pos]
              have hlength := List.length_dropWhile_le
                Byte.isAsciiAlphanumeric rest
              rw [List.length_cons]
              omega
          · intro byte' rest' groups' hbyte'
            rw [hstar byte' rest' groups' hbyte']
            simp
        · simp [Regex.matchK, hbyte]

end LocalText

/-- The parser after one segment of the local part, which it has stored. -/
def afterSegment (parser : Parser) : Parser :=
  { (parser.bumpWhile Byte.isAsciiAlphanumeric).2 with
    localSegments := parser.localSegments ++
      [localSegment (parser.rest.takeWhile Byte.isAsciiAlphanumeric)] }

theorem rest_afterSegment (parser : Parser) : parser.afterSegment.rest =
    parser.rest.dropWhile Byte.isAsciiAlphanumeric :=
  rest_bumpWhile parser Byte.isAsciiAlphanumeric

/-- What the loop of `parse_local` does after a segment. -/
private def parseLocalNext (fuel : ℕ) (parser : Parser) : Except PatternErrorKind Parser :=
  match parser.bumpIfByteSet separator with
  | none => .ok parser
  | some (byte, parser) => parseLocalLoop fuel byte parser

theorem parseLocalLoop_succ (fuel : ℕ) (precursor : Byte) (parser : Parser) :
    parseLocalLoop (fuel + 1) precursor parser =
      if (parser.rest.takeWhile Byte.isAsciiAlphanumeric).isEmpty then
        .error (.version (.localEmpty precursor))
      else
        match parser.afterSegment.rest with
        | [] => .ok parser.afterSegment
        | byte :: _ =>
            if isSeparator byte then
              parseLocalLoop fuel byte (parser.afterSegment.advance 1)
            else .ok parser.afterSegment := by
  rw [parseLocalLoop]
  change (if _ then _ else parseLocalNext fuel parser.afterSegment) = _
  unfold parseLocalNext bumpIfByteSet isSeparator
  cases parser.afterSegment.rest with
  | nil => rfl
  | cons byte rest =>
      cases hbyte : separator.contains byte <;> simp only [hbyte] <;> rfl

/-- The loop of `parse_local` reads what `localText` captures.  `done` is the
part of the captured text before the current segment, `segments` its
segments. -/
theorem parseLocalLoop_spec (fuel : ℕ) (precursor : Byte) {parser : Parser}
    {groups : Groups} {input done : List Byte} {segments : List (List Byte)}
    (hfuel : parser.rest.length < fuel) (hagrees : Agrees parser groups)
    (hinput : input = done ++ parser.rest)
    (hsplit : ∀ text : List Byte, (done ++ text).splitOnP isSeparator =
      segments ++ text.splitOnP isSeparator)
    (hlocal : parser.localSegments = segments.map localSegment) :
    outcome (parseLocalLoop fuel precursor parser >>= parseEnd) =
      (localText.matchK (fun rest groups => atEnd rest { groups with
        localText := some (input.take (input.length - rest.length)) })
        parser.rest groups).bind Groups.components := by
  induction fuel generalizing precursor parser done segments with
  | zero => omega
  | succ fuel ih =>
      rw [matchK_localText]
      rotate_left
      · intro byte rest groups hbyte
        simp [atEnd, (isAlphanumeric_facts byte hbyte).2]
      · intro byte rest groups hbyte
        simp [atEnd, (isSeparator_facts byte hbyte).2.2.1]
      have happend : parser.rest.takeWhile Byte.isAsciiAlphanumeric ++
          parser.afterSegment.rest = parser.rest := by
        rw [rest_afterSegment]
        exact List.takeWhile_append_dropWhile
      have hfirst : ∀ byte ∈ parser.rest.takeWhile Byte.isAsciiAlphanumeric,
          isSeparator byte = false := fun byte hbyte =>
        (isAlphanumeric_facts byte (List.mem_takeWhile_imp hbyte)).1
      have hagrees' : Agrees parser.afterSegment groups :=
        ⟨hagrees.epoch, hagrees.release, hagrees.pre, hagrees.post,
          hagrees.dev, hagrees.wildcard⟩
      have hsegments : parser.afterSegment.localSegments = (segments ++
          [parser.rest.takeWhile Byte.isAsciiAlphanumeric]).map
            localSegment := by
        rw [List.map_append, ← hlocal]
        rfl
      have hend : outcome parser.afterSegment.parseEnd =
          (atEnd parser.afterSegment.rest { groups with
            localText := some (input.take (input.length -
              parser.afterSegment.rest.length)) }).bind
                Groups.components := by
        refine parseEnd_spec ⟨hagrees'.epoch, hagrees'.release, hagrees'.pre,
          hagrees'.post, hagrees'.dev, hagrees'.wildcard⟩ ?_
        have htake : input.take (input.length -
            parser.afterSegment.rest.length) =
              done ++ parser.rest.takeWhile Byte.isAsciiAlphanumeric := by
          have hwhole : input =
              (done ++ parser.rest.takeWhile Byte.isAsciiAlphanumeric) ++
                parser.afterSegment.rest := by
            rw [List.append_assoc, happend, hinput]
          rw [hwhole, List.length_append, Nat.add_sub_cancel, List.take_left]
        simp only [Groups.readLocal]
        rw [htake, hsplit, List.splitOnP_eq_singleton hfirst, hsegments]
        exact List.map_congr_left fun text _ => (localSegment_eq text).symm
      rw [parseLocalLoop_succ, ← rest_afterSegment]
      by_cases hempty : parser.rest.takeWhile Byte.isAsciiAlphanumeric = []
      · rw [hempty]
        rfl
      · rw [if_neg (by simpa using hempty), if_neg hempty]
        cases hrest : parser.afterSegment.rest with
        | nil =>
            rw [hrest] at hend
            exact hend
        | cons byte rest =>
            by_cases hbyte : isSeparator byte = true
            · simp only [hbyte, if_true]
              have hadvance : (parser.afterSegment.advance 1).rest = rest := by
                rw [rest_advance, hrest]
                rfl
              have hlength := congrArg List.length happend
              rw [List.length_append, hrest, List.length_cons] at hlength
              have hnext := ih byte (by rw [hadvance]; omega)
                (hagrees'.advance 1)
                (show input = (done ++
                  (parser.rest.takeWhile Byte.isAsciiAlphanumeric ++ [byte])) ++
                    (parser.afterSegment.advance 1).rest by
                  rw [hrest] at happend
                  rw [hadvance, hinput]
                  simp [happend])
                (fun text => by
                  rw [List.append_assoc, hsplit, List.append_assoc,
                    List.singleton_append,
                    List.splitOnP_append_cons_of_forall_mem hfirst byte hbyte text,
                    List.append_cons])
                hsegments
              rw [hadvance] at hnext
              exact hnext
            · simp only [hbyte]
              rw [hrest] at hend
              exact hend

/-- The local part and the end of the input. -/
theorem parseLocal_spec {parser : Parser} {groups : Groups}
    (hagrees : Agrees parser groups) (hfresh : groups.localText = none)
    (hempty : parser.localSegments = []) :
    outcome (parser.parseLocal >>= parseEnd) =
      (afterDev parser.rest groups).bind Groups.components := by
  have hplus := bumpIf_eq parser (show ascii "+" ≠ [] by decide)
  unfold parseLocal
  rw [hplus]
  unfold afterDev localPart
  rw [Regex.matchK_opt, Regex.matchK_seq, matchK_text]
  cases hstarts : startsWith "+" parser.rest with
  | false =>
      have hlocal : groups.readLocal = parser.localSegments := by
        rw [Groups.readLocal, hfresh, hempty]
      exact parseEnd_spec hagrees hlocal
  | true =>
      have hend : atEnd parser.rest groups = none := by
        cases hrest : parser.rest with
        | nil =>
            rw [hrest] at hstarts
            exact absurd hstarts (by decide)
        | cons byte rest =>
            have hbyte : ∀ b : Byte, Byte.eqIgnoreAsciiCase 43 b = true →
                Byte.isAsciiWhitespace b = false := by
              decide +kernel
            have htext : ascii "+" = [43] := by decide
            rw [hrest, startsWith, htext, Regex.prefixBy,
              Bool.and_eq_true] at hstarts
            simp [atEnd, hbyte byte hstarts.1]
      rw [if_pos rfl, if_pos rfl, hend, Option.or_none]
      have hsegments : (parser.advance (ascii "+").length).localSegments =
          ([] : List (List Byte)).map localSegment := hempty
      have hsplit : ∀ text : List Byte, ([] ++ text).splitOnP isSeparator =
          [] ++ text.splitOnP isSeparator := fun text => by simp
      rw [← rest_advance]
      exact parseLocalLoop_spec
        ((parser.advance (ascii "+").length).rest.length + 1) 43
        (Nat.lt_succ_self _) (hagrees.advance (ascii "+").length)
        (List.nil_append _).symm hsplit hsegments

/-! ## Dev-, post- and pre-releases -/

/-- What is still unread when a component parser starts. -/
structure Unread (parser : Parser) (groups : Groups) : Prop where
  localText : groups.localText = none
  localSegments : parser.localSegments = []

theorem parseDev_spec {parser : Parser} {groups : Groups}
    (hagrees : Agrees parser groups) (hunread : Unread parser groups)
    (hdevN : groups.devN = none) :
    outcome (parser.parseDev >>= fun parser => parser.parseLocal >>= parseEnd) =
      (afterPost parser.rest groups).bind Groups.components := by
  obtain ⟨skip, hskip, hrest⟩ := skipByteSet_eq parser
  unfold parseDev
  simp only [hskip]
  rw [bumpIf_eq _ (by decide), hrest]
  cases hstarts : startsWith "dev" (skipSeparator parser.rest) with
  | false =>
      rw [afterPost_none hstarts]
      exact parseLocal_spec hagrees hunread.localText hunread.localSegments
  | true =>
      rw [afterPost_dev hstarts, if_pos rfl]
      have hrest' : ((parser.advance skip).advance (ascii "dev").length).rest =
          (skipSeparator parser.rest).drop 3 := by
        rw [rest_advance, hrest]
        rfl
      rw [recordNumber_eq _ (fun groups text => { groups with devN := text })
        _ _ (fun text => rfl) (by simp only [← hdevN])]
      rcases parseSuffixNumber_cases
          ((parser.advance skip).advance (ascii "dev").length) with
        ⟨n, count, hnumber, hparse, hafter⟩ | ⟨err, hnumber, hparse⟩
      · simp only [hparse]
        rw [hrest'] at hafter hnumber
        rw [← hafter]
        refine parseLocal_spec ⟨hagrees.epoch, hagrees.release, hagrees.pre,
          hagrees.post, ?_, hagrees.wildcard⟩ hunread.localText
          hunread.localSegments
        simp only [Groups.readDev, hnumber]
        rfl
      · simp only [hparse]
        rw [hrest'] at hnumber
        symm
        refine afterDev_bind_none (fun groups => groups.readDev = none) ?_
          (fun _ _ hgroups => hgroups) _ ?_
        · intro groups hgroups
          simp [Groups.components, hgroups]
        · simp only [Groups.readDev, hnumber]
          rfl

/-- The first string of the set, in the parser's order, that starts the
input. -/
theorem bumpIfStringSet_cases (parser : Parser) (literals : List String) :
    (∃ (index : ℕ) (literal : String), literals[index]? = some literal ∧
        startsWith literal parser.rest = true ∧
        (∀ other ∈ literals.take index, startsWith other parser.rest = false) ∧
        parser.bumpIfStringSet (literals.map ascii) =
          some (index, parser.advance (ascii literal).length)) ∨
      ((∀ literal ∈ literals, startsWith literal parser.rest = false) ∧
        parser.bumpIfStringSet (literals.map ascii) = none) := by
  unfold bumpIfStringSet
  simp only [startsWithIgnoreAsciiCase_eq, List.findIdx?_map]
  cases hfind : literals.findIdx? ((fun string =>
      Regex.prefixBy Byte.eqIgnoreAsciiCase string parser.rest) ∘ ascii) with
  | none =>
      right
      rw [List.findIdx?_eq_none_iff] at hfind
      exact ⟨hfind, rfl⟩
  | some index =>
      left
      obtain ⟨hindex, hstarts, hbefore⟩ :=
        List.findIdx?_eq_some_iff_getElem.mp hfind
      refine ⟨index, literals[index], List.getElem?_eq_getElem hindex, hstarts,
        ?_, ?_⟩
      · intro other hother
        obtain ⟨j, hj, rfl⟩ := List.mem_take_iff_getElem.mp hother
        rw [Bool.eq_false_iff]
        exact hbefore j (by omega)
      · simp [hindex]

theorem components_none_of_post {groups : Groups}
    (hgroups : groups.readPost = none) : groups.components = none := by
  simp [Groups.components, hgroups]

theorem components_none_of_pre {groups : Groups}
    (hgroups : groups.readPre = none) : groups.components = none := by
  simp [Groups.components, hgroups]

/-- The components after a post-release. -/
def parseFromDev (parser : Parser) : Except PatternErrorKind VersionPattern :=
  parser.parseDev >>= fun parser => parser.parseLocal >>= parseEnd

theorem parseSpelledPost_spec {parser : Parser} {groups : Groups}
    (hagrees : Agrees parser groups) (hunread : Unread parser groups)
    (hdevN : groups.devN = none) (hpostN1 : groups.postN1 = none)
    (hpostN2 : groups.postN2 = none)
    (hdash : ∀ rest, parser.rest = 45 :: rest →
      rest.takeWhile Byte.isAsciiDigit = []) :
    outcome (parser.parseSpelledPost >>= parseFromDev) =
      (afterPre parser.rest groups).bind Groups.components := by
  obtain ⟨skip, hskip, hrest⟩ := skipByteSet_eq parser
  have hspellings : postSpellings = Grammar.postSpellings.map ascii := rfl
  unfold parseSpelledPost
  simp only [hskip]
  rcases bumpIfStringSet_cases (parser.advance skip) Grammar.postSpellings with
    ⟨index, literal, hliteral, hstarts, hbefore, hbump⟩ | ⟨hnone, hbump⟩
  · have hmem : literal ∈ Grammar.postSpellings := List.mem_of_getElem? hliteral
    have hlonger : literal = "r" →
        startsWith "rev" (skipSeparator parser.rest) = false := by
      rintro rfl
      have hindex : index = 2 := by
        have hall : ∀ i < 3, Grammar.postSpellings[i]? = some "r" → i = 2 := by
          decide
        exact hall index (List.getElem?_eq_some_iff.mp hliteral).1 hliteral
      rw [← hrest]
      exact hbefore "rev" (by rw [hindex]; decide)
    rw [hrest] at hstarts
    have hrest' : ((parser.advance skip).advance (ascii literal).length).rest =
        (skipSeparator parser.rest).drop (ascii literal).length := by
      rw [rest_advance, hrest]
    rw [hspellings, hbump, afterPre_spelled hmem hstarts hlonger,
      recordNumber_eq _ (fun groups text => { groups with postN2 := text }) _ _
        (fun text => rfl) (by simp only [← hpostN2])]
    rcases parseSuffixNumber_cases
        ((parser.advance skip).advance (ascii literal).length) with
      ⟨n, count, hnumber, hparse, hafter⟩ | ⟨err, hnumber, hparse⟩
    · simp only [hparse]
      rw [hrest'] at hafter hnumber
      rw [← hafter]
      refine parseDev_spec ⟨hagrees.epoch, hagrees.release, hagrees.pre, ?_,
        hagrees.dev, hagrees.wildcard⟩ ⟨hunread.localText,
          hunread.localSegments⟩ hdevN
      simp only [Groups.readPost, hpostN1, hnumber]
      rfl
    · simp only [hparse]
      rw [hrest'] at hnumber
      symm
      refine afterPost_bind_none (fun groups => groups.readPost = none)
        (fun _ hgroups => components_none_of_post hgroups)
        (fun _ _ hgroups => hgroups) (fun _ _ hgroups => ⟨hgroups, hgroups⟩) _ ?_
      simp only [Groups.readPost, hpostN1, hnumber]
      rfl
  · rw [hrest] at hnone
    rw [hspellings, hbump, afterPre_none hdash hnone]
    exact parseDev_spec hagrees hunread hdevN

theorem leadingDigits_eq_none {input : List Byte}
    (hnone : leadingDigits input = none) :
    input.takeWhile Byte.isAsciiDigit = [] := by
  unfold leadingDigits at hnone
  split at hnone
  · assumption
  · simp at hnone

theorem leadingDigits_eq_some {input digits : List Byte}
    (hsome : leadingDigits input = some digits) :
    input.takeWhile Byte.isAsciiDigit ≠ [] ∧
      input.takeWhile Byte.isAsciiDigit = digits := by
  unfold leadingDigits at hsome
  split at hsome
  · simp at hsome
  · rename_i hempty
    exact ⟨hempty, Option.some.inj hsome⟩

theorem parsePost_spec {parser : Parser} {groups : Groups}
    (hagrees : Agrees parser groups) (hunread : Unread parser groups)
    (hdevN : groups.devN = none) (hpostN1 : groups.postN1 = none)
    (hpostN2 : groups.postN2 = none) :
    outcome (parser.parsePost >>= parseFromDev) =
      (afterPre parser.rest groups).bind Groups.components := by
  have hspelled := parseSpelledPost_spec hagrees hunread hdevN hpostN1 hpostN2
  unfold parsePost
  rw [bumpIf_eq _ (by decide)]
  cases hstarts : startsWith "-" parser.rest with
  | false =>
      apply hspelled
      intro rest hrest
      rw [hrest, startsWith_dash] at hstarts
      simp at hstarts
  | true =>
      obtain ⟨rest, hrest⟩ : ∃ rest, parser.rest = 45 :: rest := by
        cases hrest : parser.rest with
        | nil =>
            rw [hrest] at hstarts
            exact absurd hstarts (by decide)
        | cons byte rest =>
            rw [hrest, startsWith_dash, decide_eq_true_eq] at hstarts
            exact ⟨rest, by rw [hstarts]⟩
      have hadvance : (parser.advance (ascii "-").length).rest = rest := by
        rw [rest_advance, hrest]
        rfl
      rw [if_pos rfl]
      rcases parseNumber_cases (parser.advance (ascii "-").length) with
        ⟨hdigits, hparse⟩ | ⟨digits, n, count, hdigits, hnumber, hparse, hafter⟩ |
          ⟨digits, err, hdigits, hnumber, hparse⟩
      · simp only [hparse]
        apply hspelled
        intro rest' hrest'
        rw [hrest] at hrest'
        obtain ⟨-, rfl⟩ := List.cons.inj hrest'
        rw [hadvance] at hdigits
        exact leadingDigits_eq_none hdigits
      · simp only [hparse]
        rw [hadvance] at hdigits hafter
        obtain ⟨hne, hdigits⟩ := leadingDigits_eq_some hdigits
        rw [hrest, afterPre_dash hne, ← hafter]
        refine parseDev_spec ⟨hagrees.epoch, hagrees.release, hagrees.pre, ?_,
          hagrees.dev, hagrees.wildcard⟩ ⟨hunread.localText,
            hunread.localSegments⟩ hdevN
        simp only [Groups.readPost, hdigits, hnumber]
        rfl
      · simp only [hparse]
        rw [hadvance] at hdigits
        obtain ⟨hne, hdigits⟩ := leadingDigits_eq_some hdigits
        rw [hrest, afterPre_dash hne]
        symm
        refine afterPost_bind_none (fun groups => groups.readPost = none)
          (fun _ hgroups => components_none_of_post hgroups)
          (fun _ _ hgroups => hgroups) (fun _ _ hgroups => ⟨hgroups, hgroups⟩)
          _ ?_
        simp only [Groups.readPost, hdigits, hnumber]
        rfl

/-- The parser's order of the pre-release spellings. -/
def preLiterals : List String :=
  ["alpha", "beta", "preview", "pre", "rc", "a", "b", "c"]

theorem preKind_take {index : ℕ} {literal : String} {input : List Byte}
    (hliteral : preLiterals[index]? = some literal)
    (hstarts : startsWith literal input = true) :
    Groups.preKind (input.take (ascii literal).length) =
      preMap.getD index .rc := by
  have hlower : (input.take (ascii literal).length).map Byte.toAsciiLowercase =
      (ascii literal).map Byte.toAsciiLowercase := by
    unfold startsWith at hstarts
    clear hliteral
    revert hstarts
    generalize ascii literal = text
    intro hstarts
    induction text generalizing input with
    | nil => rfl
    | cons byte text ih =>
        cases input with
        | nil => simp [Regex.prefixBy] at hstarts
        | cons byte' input =>
            simp only [Regex.prefixBy, Bool.and_eq_true] at hstarts
            have hbyte := eq_of_beq hstarts.1
            simp [ih hstarts.2, hbyte]
  have hkinds : ∀ i < 8, ∀ literal ∈ preLiterals,
      preLiterals[i]? = some literal →
        Groups.preKind ((ascii literal).map Byte.toAsciiLowercase) =
          preMap.getD i .rc := by
    decide
  have hidempotent : ∀ b : Byte, Byte.toAsciiLowercase (Byte.toAsciiLowercase b) =
      Byte.toAsciiLowercase b := by
    decide +kernel
  rw [← hkinds index (List.getElem?_eq_some_iff.mp hliteral).1 literal
    (List.mem_of_getElem? hliteral) hliteral]
  unfold Groups.preKind
  simp only [hlower, List.map_map, Function.comp_def, hidempotent]

theorem longest_of_first {index : ℕ} {literal : String} {input : List Byte}
    (hliteral : preLiterals[index]? = some literal)
    (hstarts : startsWith literal input = true)
    (hbefore : ∀ other ∈ preLiterals.take index,
      startsWith other input = false) :
    ∀ other ∈ Grammar.preSpellings, startsWith other input = true →
      (ascii other).length ≤ (ascii literal).length := by
  have hpairs : ∀ i < 8, ∀ literal ∈ preLiterals,
      preLiterals[i]? = some literal → ∀ other ∈ Grammar.preSpellings,
        other ∈ preLiterals.take i ∨ Conflict literal other = true ∨
          (ascii other).length ≤ (ascii literal).length := by
    decide
  intro other hother hstarts'
  rcases hpairs index (List.getElem?_eq_some_iff.mp hliteral).1 literal
      (List.mem_of_getElem? hliteral) hliteral other hother with
    hearlier | hconflict | hlength
  · rw [hbefore other hearlier] at hstarts'
    exact absurd hstarts' (by decide)
  · rw [startsWith_of_conflict hconflict hstarts] at hstarts'
    exact absurd hstarts' (by decide)
  · exact hlength

theorem parsePre_spec {parser : Parser} {groups : Groups}
    (hagrees : Agrees parser groups) (hunread : Unread parser groups)
    (hdevN : groups.devN = none) (hpostN1 : groups.postN1 = none)
    (hpostN2 : groups.postN2 = none) (hpreN : groups.preN = none) :
    outcome (parser.parsePre >>= fun parser =>
        parser.parsePost >>= parseFromDev) =
      (afterRelease parser.rest groups).bind Groups.components := by
  obtain ⟨skip, hskip, hrest⟩ := skipByteSet_eq parser
  have hspellings : preSpellings = preLiterals.map ascii := rfl
  unfold parsePre
  simp only [hskip]
  rcases bumpIfStringSet_cases (parser.advance skip) preLiterals with
    ⟨index, literal, hliteral, hstarts, hbefore, hbump⟩ | ⟨hnone, hbump⟩
  · have hmem : literal ∈ Grammar.preSpellings := by
      have hsubset : ∀ literal ∈ preLiterals,
          literal ∈ Grammar.preSpellings := by
        decide
      exact hsubset literal (List.mem_of_getElem? hliteral)
    have hlongest := longest_of_first hliteral hstarts hbefore
    have hkind := preKind_take hliteral hstarts
    rw [hrest] at hstarts hlongest hkind
    have hrest' : ((parser.advance skip).advance (ascii literal).length).rest =
        (skipSeparator parser.rest).drop (ascii literal).length := by
      rw [rest_advance, hrest]
    rw [hspellings, hbump, afterRelease_spelled hmem hstarts hlongest,
      recordNumber_eq _ (fun groups text => { groups with preN := text }) _ _
        (fun text => rfl) (by simp only [← hpreN])]
    rcases parseSuffixNumber_cases
        ((parser.advance skip).advance (ascii literal).length) with
      ⟨n, count, hnumber, hparse, hafter⟩ | ⟨err, hnumber, hparse⟩
    · simp only [hparse]
      rw [hrest'] at hafter hnumber
      rw [← hafter]
      refine parsePost_spec ⟨hagrees.epoch, hagrees.release, ?_, hagrees.post,
        hagrees.dev, hagrees.wildcard⟩ ⟨hunread.localText,
          hunread.localSegments⟩ hdevN hpostN1 hpostN2
      simp only [Groups.readPre, hnumber, hkind]
      rfl
    · simp only [hparse]
      rw [hrest'] at hnumber
      symm
      refine afterPre_bind_none (fun groups => groups.readPre = none)
        (fun _ hgroups => components_none_of_pre hgroups)
        (fun _ _ hgroups => hgroups) (fun _ _ hgroups => ⟨hgroups, hgroups⟩)
        (fun _ _ hgroups => ⟨hgroups, hgroups, hgroups⟩) _ ?_
      simp only [Groups.readPre, hnumber]
      rfl
  · have hnone' : ∀ literal ∈ Grammar.preSpellings,
        startsWith literal (skipSeparator parser.rest) = false := by
      have hsubset : ∀ literal ∈ Grammar.preSpellings,
          literal ∈ preLiterals := by
        decide
      intro literal hliteral
      rw [← hrest]
      exact hnone literal (hsubset literal hliteral)
    rw [hspellings, hbump, afterRelease_none hnone']
    exact parsePost_spec hagrees hunread hdevN hpostN1 hpostN2

/-! ## The release -/

/-- The wildcard and the components after the release. -/
def parseFromWildcard (parser : Parser) :
    Except PatternErrorKind VersionPattern :=
  parser.parseWildcard >>= fun (wildcard, parser) =>
    if wildcard then .ok parser.intoPattern else parser.parseSuffixes

/-- No group after the release is set yet. -/
structure Fresh (parser : Parser) (groups : Groups) : Prop extends
    Unread parser groups where
  preN : groups.preN = none
  postN1 : groups.postN1 = none
  postN2 : groups.postN2 = none
  devN : groups.devN = none

theorem parseFromWildcard_spec {parser : Parser} {groups : Groups}
    (hagrees : Agrees parser groups) (hfresh : Fresh parser groups) :
    outcome parser.parseFromWildcard =
      (afterRelease parser.rest groups).bind Groups.components := by
  unfold parseFromWildcard parseWildcard
  rw [bumpIf_eq _ (by decide)]
  cases hstarts : startsWith ".*" parser.rest with
  | false =>
      exact parsePre_spec hagrees hfresh.toUnread hfresh.devN hfresh.postN1
        hfresh.postN2 hfresh.preN
  | true =>
      obtain ⟨rest, hrest⟩ : ∃ rest, parser.rest = 46 :: 42 :: rest := by
        have htext : ascii ".*" = [46, 42] := by decide
        have hdot : ∀ b : Byte, Byte.eqIgnoreAsciiCase 46 b = true → b = 46 := by
          decide +kernel
        have hstar : ∀ b : Byte, Byte.eqIgnoreAsciiCase 42 b = true → b = 42 := by
          decide +kernel
        unfold startsWith at hstarts
        rw [htext] at hstarts
        match hrest : parser.rest, hstarts with
        | [_], hstarts => simp [Regex.prefixBy] at hstarts
        | byte :: byte' :: rest, hstarts =>
            simp only [Regex.prefixBy, Bool.and_eq_true] at hstarts
            rw [hdot byte hstarts.1, hstar byte' hstarts.2.1]
            exact ⟨rest, rfl⟩
      rw [hrest, afterRelease_none_of_dot (by decide), if_pos rfl]
      simp only
      split
      · rfl
      · rfl

/-- The texts of the release numbers in the part read so far. -/
structure ReleaseSplit (done : List Byte) (texts : List (List Byte)) : Prop where
  whole : done.splitOnP (·.val == 46) = texts
  more : ∀ text : List Byte, (done ++ 46 :: text).splitOnP (·.val == 46) =
    texts ++ text.splitOnP (·.val == 46)

private theorem noDot_digits {digits : List Byte}
    (hdigits : ∀ byte ∈ digits, Byte.isAsciiDigit byte = true) :
    ∀ byte ∈ digits, (byte.val == 46) = false := by
  have hbytes : ∀ b : Byte, Byte.isAsciiDigit b = true → (b.val == 46) = false := by
    decide +kernel
  exact fun byte hbyte => hbytes byte (hdigits byte hbyte)

theorem releaseSplit_first {digits : List Byte}
    (hdigits : ∀ byte ∈ digits, Byte.isAsciiDigit byte = true) :
    ReleaseSplit digits [digits] where
  whole := List.splitOnP_eq_singleton (noDot_digits hdigits)
  more := fun text => List.splitOnP_append_cons_of_forall_mem
    (noDot_digits hdigits) 46 (by decide) text

theorem ReleaseSplit.snoc {done digits : List Byte} {texts : List (List Byte)}
    (hsplit : ReleaseSplit done texts)
    (hdigits : ∀ byte ∈ digits, Byte.isAsciiDigit byte = true) :
    ReleaseSplit (done ++ 46 :: digits) (texts ++ [digits]) where
  whole := by
    rw [hsplit.more, (releaseSplit_first hdigits).whole]
  more := by
    intro text
    rw [List.append_assoc, List.cons_append, hsplit.more,
      (releaseSplit_first hdigits).more, List.append_assoc]

private theorem take_done {input done rest : List Byte}
    (hinput : input = done ++ rest) :
    input.take (input.length - rest.length) = done := by
  rw [hinput, List.length_append, Nat.add_sub_cancel, List.take_left]

private theorem takeWhile_digits (input : List Byte) :
    ∀ byte ∈ input.takeWhile Byte.isAsciiDigit, Byte.isAsciiDigit byte = true :=
  fun _ hbyte => List.mem_takeWhile_imp hbyte

theorem components_none_of_release {groups : Groups}
    (hgroups : groups.readRelease = none) : groups.components = none := by
  simp [Groups.components, hgroups]

theorem components_none_of_epoch {groups : Groups}
    (hgroups : groups.readEpoch = none) : groups.components = none := by
  simp [Groups.components, hgroups]

/-- A release number that does not fit is lost for good. -/
theorem dotted_lost {input done rest : List Byte} {texts : List (List Byte)}
    (hinput : input = done ++ rest) (hsplit : ReleaseSplit done texts)
    (hlost : texts.mapM number = none) (groups : Groups) :
    (dotted.matchK (closeRelease input) rest groups).bind Groups.components =
      none := by
  induction hlength : rest.length using Nat.strong_induction_on
    generalizing done rest texts with
  | _ length ih =>
      by_cases hdot : ∃ tail, rest = 46 :: tail ∧
          tail.takeWhile Byte.isAsciiDigit ≠ []
      · obtain ⟨tail, rfl, hdigits⟩ := hdot
        have happend : tail.takeWhile Byte.isAsciiDigit ++
            tail.dropWhile Byte.isAsciiDigit = tail :=
          List.takeWhile_append_dropWhile
        rw [matchK_dotted_dot (closeRelease_digit input) (closeRelease_dot input)
          hdigits]
        refine ih _ ?_ ?_ (hsplit.snoc (takeWhile_digits tail)) ?_ rfl
        · have hle := List.length_dropWhile_le Byte.isAsciiDigit tail
          rw [List.length_cons] at hlength
          omega
        · rw [hinput]
          simp [happend]
        · rw [List.mapM_append, hlost]
          rfl
      · rw [matchK_dotted_none (closeRelease_digit input)]
        · unfold closeRelease
          rw [take_done hinput]
          refine afterRelease_bind_none (fun groups => groups.readRelease = none)
            (fun _ hgroups => components_none_of_release hgroups)
            (fun _ _ hgroups => hgroups) (fun _ _ hgroups => ⟨hgroups, hgroups⟩)
            (fun _ _ hgroups => ⟨hgroups, hgroups, hgroups⟩)
            (fun _ _ hgroups => ⟨hgroups, hgroups⟩) _ ?_
          simp only [Groups.readRelease, Option.getD_some]
          rw [hsplit.whole]
          exact hlost
        · intro tail htail
          by_contra hdigits
          exact hdot ⟨tail, htail, hdigits⟩

/-- The end of the release. -/
theorem parseFromWildcard_dotted {parser : Parser} {groups : Groups}
    {input done : List Byte} (hinput : input = done ++ parser.rest)
    (hagrees : Agrees parser { groups with release := some done })
    (hfresh : Fresh parser groups)
    (hdot : ∀ rest, parser.rest = 46 :: rest →
      rest.takeWhile Byte.isAsciiDigit = []) :
    outcome parser.parseFromWildcard =
      (dotted.matchK (closeRelease input) parser.rest groups).bind
        Groups.components := by
  rw [matchK_dotted_none (closeRelease_digit input) hdot]
  unfold closeRelease
  rw [take_done hinput]
  exact parseFromWildcard_spec hagrees
    ⟨⟨hfresh.localText, hfresh.localSegments⟩, hfresh.preN, hfresh.postN1,
      hfresh.postN2, hfresh.devN⟩

theorem parseRestOfReleaseLoop_spec (fuel : ℕ) {parser : Parser}
    {groups : Groups} {input done : List Byte} {texts : List (List Byte)}
    (hfuel : parser.rest.length ≤ fuel) (hinput : input = done ++ parser.rest)
    (hsplit : ReleaseSplit done texts)
    (hrelease : texts.mapM number = some parser.release)
    (hagrees : Agrees parser { groups with release := some done })
    (hfresh : Fresh parser groups) :
    outcome (parseRestOfReleaseLoop fuel parser >>= parseFromWildcard) =
      (dotted.matchK (closeRelease input) parser.rest groups).bind
        Groups.components := by
  induction fuel generalizing parser done texts with
  | zero =>
      apply parseFromWildcard_dotted hinput hagrees hfresh
      intro rest hrest
      rw [hrest] at hfuel
      simp at hfuel
  | succ fuel ih =>
      rw [parseRestOfReleaseLoop, bumpIf_eq _ (by decide)]
      cases hstarts : startsWith "." parser.rest with
      | false =>
          apply parseFromWildcard_dotted hinput hagrees hfresh
          intro rest hrest
          rw [hrest, startsWith_dot] at hstarts
          simp at hstarts
      | true =>
          obtain ⟨rest, hrest⟩ : ∃ rest, parser.rest = 46 :: rest := by
            cases hrest : parser.rest with
            | nil =>
                rw [hrest] at hstarts
                exact absurd hstarts (by decide)
            | cons byte rest =>
                rw [hrest, startsWith_dot, decide_eq_true_eq] at hstarts
                exact ⟨rest, by rw [hstarts]⟩
          have hadvance : (parser.advance (ascii ".").length).rest = rest := by
            rw [rest_advance, hrest]
            rfl
          have happend : rest.takeWhile Byte.isAsciiDigit ++
              rest.dropWhile Byte.isAsciiDigit = rest :=
            List.takeWhile_append_dropWhile
          have hinput' : input =
              (done ++ 46 :: rest.takeWhile Byte.isAsciiDigit) ++
                rest.dropWhile Byte.isAsciiDigit := by
            rw [hinput, hrest]
            simp [happend]
          rw [if_pos rfl]
          rcases parseNumber_cases (parser.advance (ascii ".").length) with
            ⟨hdigits, hparse⟩ |
              ⟨digits, n, count, hdigits, hnumber, hparse, hafter⟩ |
              ⟨digits, err, hdigits, hnumber, hparse⟩
          · simp only [hparse]
            apply parseFromWildcard_dotted hinput hagrees hfresh
            intro rest' hrest'
            rw [hrest] at hrest'
            obtain ⟨-, rfl⟩ := List.cons.inj hrest'
            rw [hadvance] at hdigits
            exact leadingDigits_eq_none hdigits
          · simp only [hparse]
            rw [hadvance] at hdigits hafter
            obtain ⟨hne, rfl⟩ := leadingDigits_eq_some hdigits
            have hrelease' : (texts ++ [rest.takeWhile Byte.isAsciiDigit]).mapM
                number = some (parser.release ++ [n]) := by
              rw [List.mapM_append, hrelease]
              simp [hnumber]
            have hsnoc := hsplit.snoc (takeWhile_digits rest)
            rw [hrest, matchK_dotted_dot (closeRelease_digit input)
              (closeRelease_dot input) hne, ← hafter]
            rw [← hafter] at hinput'
            refine ih ?_ hinput' hsnoc hrelease' ?_ ?_
            · have hle := List.length_dropWhile_le Byte.isAsciiDigit rest
              rw [hrest, List.length_cons] at hfuel
              change ((parser.advance (ascii ".").length).advance
                count).rest.length ≤ fuel
              rw [hafter]
              omega
            · refine ⟨hagrees.epoch, ?_, hagrees.pre, hagrees.post, hagrees.dev,
                hagrees.wildcard⟩
              simp only [Groups.readRelease, Option.getD_some]
              rw [hsnoc.whole]
              exact hrelease'
            · exact ⟨⟨hfresh.localText, hfresh.localSegments⟩, hfresh.preN,
                hfresh.postN1, hfresh.postN2, hfresh.devN⟩
          · simp only [hparse]
            rw [hadvance] at hdigits
            obtain ⟨hne, rfl⟩ := leadingDigits_eq_some hdigits
            rw [hrest, matchK_dotted_dot (closeRelease_digit input)
              (closeRelease_dot input) hne, dotted_lost hinput'
                (hsplit.snoc (takeWhile_digits rest))]
            · rfl
            · rw [List.mapM_append, hrelease]
              simp [hnumber]

/-! ## The whole input -/

/-- The epoch, the release and everything after them. -/
def parseFromEpoch (parser : Parser) :
    Except PatternErrorKind VersionPattern :=
  parser.parseEpochAndInitialRelease >>= fun parser =>
    parser.parseRestOfRelease >>= parseFromWildcard

theorem fromRelease_epoch_lost (input : List Byte) {groups : Groups}
    (hgroups : groups.readEpoch = none) :
    (fromRelease input groups).bind Groups.components = none := by
  refine matchK_bind_none (fun groups => groups.readEpoch = none)
    (fun rest groups hgroups => ?_) ?_ input hgroups
  · exact afterRelease_bind_none (fun groups => groups.readEpoch = none)
      (fun _ hgroups => components_none_of_epoch hgroups)
      (fun _ _ hgroups => hgroups) (fun _ _ hgroups => ⟨hgroups, hgroups⟩)
      (fun _ _ hgroups => ⟨hgroups, hgroups, hgroups⟩)
      (fun _ _ hgroups => ⟨hgroups, hgroups⟩) _ hgroups
  · exact ⟨⟨⟨trivial, trivial⟩, Regex.keeps_literal _ _ _, trivial, trivial⟩,
      fun _ _ hgroups => hgroups⟩

/-- The release after its first number has been read. -/
theorem parseRestOfRelease_spec {parser : Parser} {groups : Groups}
    {input digits : List Byte} {n : ℕ} (hinput : input = digits ++ parser.rest)
    (hdigits : ∀ byte ∈ digits, Byte.isAsciiDigit byte = true)
    (hnumber : number digits = some n) (hrelease : parser.release = [n])
    (hagrees : Agrees parser { groups with release := some digits })
    (hfresh : Fresh parser groups) :
    outcome (parser.parseRestOfRelease >>= parseFromWildcard) =
      (dotted.matchK (closeRelease input) parser.rest groups).bind
        Groups.components := by
  refine parseRestOfReleaseLoop_spec parser.rest.length (le_refl _) hinput
    (releaseSplit_first hdigits) ?_ hagrees hfresh
  rw [hrelease]
  simp [hnumber]

private theorem readRelease_first {digits : List Byte} {n : ℕ} (groups : Groups)
    (hdigits : ∀ byte ∈ digits, Byte.isAsciiDigit byte = true)
    (hnumber : number digits = some n) :
    ({ groups with release := some digits } : Groups).readRelease = some [n] := by
  simp only [Groups.readRelease, Option.getD_some]
  rw [(releaseSplit_first hdigits).whole]
  simp [hnumber]

/-- The release and everything after it, for a parser that has read at most the
epoch. -/
theorem parseInitialRelease_spec (parser : Parser) (groups : Groups)
    (hepoch : groups.readEpoch = some parser.epoch)
    (hgroups : groups = { start with epoch := groups.epoch })
    (hrelease : parser.release = []) (hpre : parser.pre = none)
    (hpost : parser.post = none) (hdev : parser.dev = none)
    (hlocal : parser.localSegments = []) (hwildcard : parser.wildcard = false)
    {n count : ℕ} (hnumber : number
      (parser.rest.takeWhile Byte.isAsciiDigit) = some n)
    (hafter : (parser.advance count).rest =
      parser.rest.dropWhile Byte.isAsciiDigit) :
    outcome (({ parser.advance count with
        release := parser.release ++ [n] } : Parser).parseRestOfRelease >>=
          parseFromWildcard) =
      (dotted.matchK (closeRelease parser.rest)
        (parser.rest.dropWhile Byte.isAsciiDigit) groups).bind
          Groups.components := by
  rw [← hafter]
  refine parseRestOfRelease_spec ?_ (takeWhile_digits _) hnumber ?_ ?_ ?_
  · change parser.rest = _ ++ (parser.advance count).rest
    rw [hafter]
    exact List.takeWhile_append_dropWhile.symm
  · rw [hrelease]
    rfl
  · refine ⟨hepoch, ?_, ?_, ?_, ?_, hwildcard⟩
    · rw [readRelease_first groups (takeWhile_digits _) hnumber, hrelease]
      rfl
    · rw [hgroups]
      exact congrArg some hpre.symm
    · rw [hgroups]
      exact congrArg some hpost.symm
    · rw [hgroups]
      exact congrArg some hdev.symm
  · rw [hgroups]
    exact ⟨⟨rfl, hlocal⟩, rfl, rfl, rfl, rfl⟩

theorem parseFromEpoch_spec (v : List Byte) (count : ℕ) :
    outcome ((Parser.new v).advance count).parseFromEpoch =
      (fromEpoch ((Parser.new v).advance count).rest start).bind
        Groups.components := by
  unfold parseFromEpoch parseEpochAndInitialRelease
  rcases parseNumber_cases ((Parser.new v).advance count) with
    ⟨hdigits, hparse⟩ | ⟨digits, n, skip, hdigits, hnumber, hparse, hafter⟩ |
      ⟨digits, err, hdigits, hnumber, hparse⟩
  · rw [hparse, fromEpoch_none (leadingDigits_eq_none hdigits)]
    rfl
  · obtain ⟨hne, rfl⟩ := leadingDigits_eq_some hdigits
    rw [hparse, fromEpoch_eq hne, ← hafter]
    simp only
    rw [bumpIf_eq _ (by decide)]
    cases hstarts : startsWith "!"
        (((Parser.new v).advance count).advance skip).rest with
    | false =>
        rw [hafter]
        exact parseInitialRelease_spec _ start rfl rfl rfl rfl rfl rfl rfl rfl
          hnumber hafter
    | true =>
        simp only [if_true]
        have hrest := rest_advance
          (((Parser.new v).advance count).advance skip) (ascii "!").length
        rw [show (1 : ℕ) = (ascii "!").length from rfl, ← hrest, fromRelease_eq]
        rcases parseNumber_cases
            ((((Parser.new v).advance count).advance skip).advance
              (ascii "!").length) with
          ⟨hdigits', hparse'⟩ |
            ⟨digits', m, skip', hdigits', hnumber', hparse', hafter'⟩ |
            ⟨digits', err, hdigits', hnumber', hparse'⟩
        · rw [hparse', if_pos (leadingDigits_eq_none hdigits')]
          rfl
        · obtain ⟨hne', rfl⟩ := leadingDigits_eq_some hdigits'
          rw [hparse', if_neg hne']
          refine parseInitialRelease_spec { (((Parser.new v).advance
            count).advance skip).advance (ascii "!").length with epoch := n } _
            ?_ rfl rfl rfl rfl rfl rfl rfl hnumber' hafter'
          exact hnumber
        · obtain ⟨hne', rfl⟩ := leadingDigits_eq_some hdigits'
          rw [hparse', if_neg hne']
          symm
          refine dotted_lost List.takeWhile_append_dropWhile.symm
            (releaseSplit_first (takeWhile_digits _)) ?_ _
          simp [hnumber']
  · obtain ⟨hne, rfl⟩ := leadingDigits_eq_some hdigits
    rw [hparse, fromEpoch_eq hne]
    symm
    split
    · apply fromRelease_epoch_lost
      simp only [Groups.readEpoch, numberOrZero]
      exact hnumber
    · refine dotted_lost List.takeWhile_append_dropWhile.symm
        (releaseSplit_first (takeWhile_digits _)) ?_ _
      simp [hnumber]

/-- The general parser reads the grammar. -/
theorem outcome_parseSlow (v : List Byte) :
    outcome (Parser.new v).parseSlow =
      (version.matchK atEnd (v.dropWhile Byte.isAsciiWhitespace) start).bind
        Groups.components := by
  obtain ⟨skip, hskip⟩ : ∃ skip,
      ((Parser.new v).bumpWhile Byte.isAsciiWhitespace).2 =
        (Parser.new v).advance skip := ⟨_, rfl⟩
  have hrest := rest_bumpWhile (Parser.new v) Byte.isAsciiWhitespace
  rw [hskip] at hrest
  have hnew : (Parser.new v).rest = v := rfl
  rw [hnew] at hrest
  have hslow : (Parser.new v).parseSlow =
      ((((Parser.new v).bumpWhile Byte.isAsciiWhitespace).2.bumpIf
        (ascii "v")).getD
          ((Parser.new v).bumpWhile Byte.isAsciiWhitespace).2).parseFromEpoch :=
    rfl
  rw [hslow, hskip, bumpIf_eq _ (by decide), matchK_version, ← hrest]
  cases hstarts : startsWith "v" ((Parser.new v).advance skip).rest with
  | false => exact parseFromEpoch_spec v skip
  | true =>
      simp only [if_true, Option.getD_some]
      have hboth : ((Parser.new v).advance skip).advance (ascii "v").length =
          (Parser.new v).advance (skip + (ascii "v").length) := by
        simp only [advance, Nat.add_assoc]
      have hdrop : ((Parser.new v).advance skip).rest.drop 1 =
          ((Parser.new v).advance (skip + (ascii "v").length)).rest := by
        rw [← hboth, rest_advance _ (ascii "v").length]
        rfl
      rw [hboth, hdrop]
      exact parseFromEpoch_spec v _

end Parser

end Uv.Pep440
