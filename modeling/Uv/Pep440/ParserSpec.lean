import Uv.Pep440.ParserGrammar

/-!
# What the version parser accepts

The fast path agrees with the general parser, so the parser as a whole accepts
exactly the grammar, with every number outside the local part in range, and
stores exactly what the groups of the first match say.
-/

namespace Uv.Pep440

open Uv.Core Grammar

namespace Parser

/-! ## The fast path -/

/-- Numbers separated by dots, as the fast path reads them. -/
inductive Dotted : List Byte → List (List Byte) → Prop where
  | one {digits : List Byte} (hne : digits ≠ [])
      (hdigits : ∀ byte ∈ digits, Byte.isAsciiDigit byte = true)
      (hvalue : decimal digits ≤ 255) : Dotted digits [digits]
  | cons {digits text : List Byte} {texts : List (List Byte)}
      (hne : digits ≠ [])
      (hdigits : ∀ byte ∈ digits, Byte.isAsciiDigit byte = true)
      (hvalue : decimal digits ≤ 255) (hrest : Dotted text texts) :
      Dotted (digits ++ 46 :: text) (digits :: texts)

private theorem decimal_append (digits : List Byte) (byte : Byte) :
    decimal (digits ++ [byte]) = decimal digits * 10 + (byte.val - 48) := by
  simp [decimal]

/-- `digits` is the number being read. -/
theorem parseFastLoop_spec (rest digits : List Byte) {release numbers : List ℕ}
    (hdigits : ∀ byte ∈ digits, Byte.isAsciiDigit byte = true)
    (hvalue : decimal digits ≤ 255)
    (hloop : parseFastLoop rest (!digits.isEmpty) (decimal digits) release =
      some numbers) :
    numbers.length ≤ 4 ∧ ∃ texts, Dotted (digits ++ rest) texts ∧
      numbers = release ++ texts.map decimal := by
  induction rest generalizing digits release with
  | nil =>
      rw [parseFastLoop] at hloop
      by_cases hempty : digits = []
      · simp [hempty] at hloop
      · by_cases hlength : release.length < 4
        · simp only [List.isEmpty_eq_false_iff.mpr hempty, hlength, if_true,
            Bool.not_not, Bool.false_eq_true, if_false, Option.some.injEq] at hloop
          rw [List.append_nil, ← hloop]
          refine ⟨?_, [digits], .one hempty hdigits hvalue, rfl⟩
          rw [List.length_append, List.length_singleton]
          omega
        · simp [hlength] at hloop
  | cons byte rest ih =>
      rw [parseFastLoop] at hloop
      by_cases hdot : byte.val = 46
      · have hbyte : byte = 46 := Fin.ext hdot
        by_cases hempty : digits = []
        · simp [hdot, hempty] at hloop
        · by_cases hlength : release.length < 4
          · simp only [hdot, List.isEmpty_eq_false_iff.mpr hempty, hlength,
              if_true, Bool.not_not, Bool.false_eq_true, if_false] at hloop
            obtain ⟨hbound, texts, hdotted, hnumbers⟩ :=
              ih [] (by simp) (by simp [decimal]) hloop
            refine ⟨hbound, digits :: texts, ?_, ?_⟩
            · rw [hbyte]
              exact .cons hempty hdigits hvalue hdotted
            · rw [hnumbers]
              simp
          · simp [hdot, hlength] at hloop
      · rw [if_neg hdot] at hloop
        split at hloop
        · simp at hloop
        · rename_i hbyte
          split at hloop
          · simp at hloop
          · rename_i hrange
            have hdigit := (isAsciiDigit_iff byte).mpr hbyte
            have happend := decimal_append digits byte
            have hstep : parseFastLoop rest (!(digits ++ [byte]).isEmpty)
                (decimal (digits ++ [byte])) release = some numbers := by
              have hnonempty : (digits ++ [byte]).isEmpty = false := by simp
              rw [happend, hnonempty]
              exact hloop
            have hnext := ih (digits ++ [byte])
              (by
                intro b hb
                rcases List.mem_append.mp hb with hb | hb
                · exact hdigits b hb
                · rw [List.mem_singleton.mp hb]
                  exact hdigit)
              (by rw [happend]; omega) hstep
            simpa using hnext

/-- Dotted numbers are read to their end. -/
theorem Dotted.matchK {text : List Byte} {texts : List (List Byte)}
    (hdotted : Dotted text texts) (input : List Byte) (groups : Groups) :
    text.takeWhile Byte.isAsciiDigit ≠ [] ∧
      Grammar.dotted.matchK (closeRelease input)
        (text.dropWhile Byte.isAsciiDigit) groups =
          closeRelease input [] groups := by
  have hstop : Byte.isAsciiDigit 46 = false := by decide
  induction hdotted with
  | @one digits hne hdigits hvalue =>
      have htake : digits.takeWhile Byte.isAsciiDigit = digits :=
        List.takeWhile_eq_self_iff.mpr hdigits
      have hdrop : digits.dropWhile Byte.isAsciiDigit = [] :=
        List.dropWhile_eq_nil_iff.mpr hdigits
      rw [htake, hdrop, matchK_dotted_none (closeRelease_digit input) (by simp)]
      exact ⟨hne, rfl⟩
  | @cons digits text texts hne hdigits hvalue hrest ih =>
      have htake : (digits ++ 46 :: text).takeWhile Byte.isAsciiDigit =
          digits := by
        rw [List.takeWhile_append_of_pos hdigits]
        simp [hstop]
      have hdrop : (digits ++ 46 :: text).dropWhile Byte.isAsciiDigit =
          46 :: text := by
        rw [List.dropWhile_append_of_pos hdigits]
        simp [hstop]
      rw [htake, hdrop, matchK_dotted_dot (closeRelease_digit input)
        (closeRelease_dot input) ih.1]
      exact ⟨hne, ih.2⟩

theorem Dotted.dropWhile {text : List Byte} {texts : List (List Byte)}
    (hdotted : Dotted text texts) :
    text.dropWhile Byte.isAsciiDigit = [] ∨
      ∃ rest, text.dropWhile Byte.isAsciiDigit = 46 :: rest := by
  have hstop : Byte.isAsciiDigit 46 = false := by decide
  cases hdotted with
  | one _ hdigits => exact .inl (List.dropWhile_eq_nil_iff.mpr hdigits)
  | cons _ hdigits =>
      right
      rw [List.dropWhile_append_of_pos hdigits]
      simp [hstop]

theorem Dotted.splitOnP {text : List Byte} {texts : List (List Byte)}
    (hdotted : Dotted text texts) :
    text.splitOnP (·.val == 46) = texts ∧
      texts.mapM number = some (texts.map decimal) ∧
      ∀ n ∈ texts.map decimal, n ≤ 255 := by
  have hnumber : ∀ {digits : List Byte}, decimal digits ≤ 255 →
      number digits = some (decimal digits) := by
    intro digits hvalue
    unfold number
    rw [if_pos (le_trans hvalue (by decide))]
  induction hdotted with
  | one hne hdigits hvalue =>
      refine ⟨(releaseSplit_first hdigits).whole, by simp [hnumber hvalue], ?_⟩
      simpa using hvalue
  | cons hne hdigits hvalue hrest ih =>
      obtain ⟨hsplit, hmap, hbound⟩ := ih
      refine ⟨?_, ?_, ?_⟩
      · rw [(releaseSplit_first hdigits).more, hsplit]
        rfl
      · rw [List.mapM_cons, hnumber hvalue, hmap]
        rfl
      · simp only [List.map_cons, List.mem_cons, forall_eq_or_imp]
        exact ⟨hvalue, hbound⟩

/-- The packed word of the fast path is the one the builders make. -/
theorem small_eq_new {numbers : List ℕ} (hne : numbers ≠ [])
    (hlength : numbers.length ≤ 4) (hbound : ∀ n ∈ numbers, n ≤ 255) :
    Version.small {
      len := numbers.length
      repr :=
        (BitVec.ofNat 64 (numbers.getD 0 0) <<< 48) |||
          (BitVec.ofNat 64 (numbers.getD 1 0) <<< 40) |||
          (BitVec.ofNat 64 (numbers.getD 2 0) <<< 32) |||
          (BitVec.ofNat 64 (numbers.getD 3 0) <<< 24) |||
          (BitVec.ofNat 64 VersionSmall.suffixNone <<<
            VersionSmall.suffixVersionBitLen) } = Version.new numbers := by
  have hnew : VersionSmall.new.clearRelease = ⟨0,
      BitVec.ofNat 64 VersionSmall.suffixNone <<<
        VersionSmall.suffixVersionBitLen⟩ := by
    decide
  have hfirst : ∀ word n, n ≤ 255 →
      (Version.small ⟨0, word⟩).pushRelease n =
        .small ⟨1, word ||| (BitVec.ofNat 64 n <<< 48)⟩ := by
    intro word n hn
    have hsmall : ¬ n > 65535 := by omega
    simp [Version.pushRelease, Version.update, VersionSmall.pushRelease, hsmall]
  have hmore : ∀ len word n, 0 < len → len < 4 → n ≤ 255 →
      (Version.small ⟨len, word⟩).pushRelease n =
        .small ⟨len + 1, word ||| (BitVec.ofNat 64 n <<< (48 - len * 8))⟩ := by
    intro len word n hpos hlen hn
    have hsmall : ¬ n > 255 := by omega
    have hroom : ¬ len ≥ 4 := by omega
    have hzero : len ≠ 0 := by omega
    simp [Version.pushRelease, Version.update, VersionSmall.pushRelease, hsmall,
      hroom, hzero]
  have hzero : ∀ k : ℕ, BitVec.ofNat 64 0 <<< k = 0#64 := fun k =>
    BitVec.zero_shiftLeft k
  unfold Version.new Version.withRelease Version.clearRelease
  rcases numbers with _ | ⟨a, _ | ⟨b, _ | ⟨c, _ | ⟨d, _ | ⟨e, rest⟩⟩⟩⟩⟩
  case nil => exact (hne rfl).elim
  case cons.nil =>
      have ha := hbound a (by simp)
      simp only [hnew, List.foldl_cons, List.foldl_nil, hfirst _ _ ha,
        List.getD_cons_zero, List.getD_cons_succ, List.getD_nil, hzero,
        BitVec.or_zero, List.length_cons, List.length_nil]
      rw [BitVec.or_comm]
  case cons.cons.nil =>
      have ha := hbound a (by simp)
      have hb := hbound b (by simp)
      simp only [hnew, List.foldl_cons, List.foldl_nil, hfirst _ _ ha,
        hmore 1 _ _ (by omega) (by omega) hb, List.getD_cons_zero,
        List.getD_cons_succ, List.getD_nil, hzero, BitVec.or_zero,
        List.length_cons, List.length_nil, Nat.reduceMul, Nat.reduceSub,
        Nat.reduceAdd]
      generalize BitVec.ofNat 64 VersionSmall.suffixNone <<<
        VersionSmall.suffixVersionBitLen = suffix
      simp only [BitVec.or_assoc]
      rw [BitVec.or_comm suffix]
      simp only [BitVec.or_assoc]
  case cons.cons.cons.nil =>
      have ha := hbound a (by simp)
      have hb := hbound b (by simp)
      have hc := hbound c (by simp)
      simp only [hnew, List.foldl_cons, List.foldl_nil, hfirst _ _ ha,
        hmore 1 _ _ (by omega) (by omega) hb,
        hmore 2 _ _ (by omega) (by omega) hc, List.getD_cons_zero,
        List.getD_cons_succ, List.getD_nil, hzero, BitVec.or_zero,
        List.length_cons, List.length_nil, Nat.reduceMul, Nat.reduceSub,
        Nat.reduceAdd]
      generalize BitVec.ofNat 64 VersionSmall.suffixNone <<<
        VersionSmall.suffixVersionBitLen = suffix
      simp only [BitVec.or_assoc]
      rw [BitVec.or_comm suffix]
      simp only [BitVec.or_assoc]
  case cons.cons.cons.cons.nil =>
      have ha := hbound a (by simp)
      have hb := hbound b (by simp)
      have hc := hbound c (by simp)
      have hd := hbound d (by simp)
      simp only [hnew, List.foldl_cons, List.foldl_nil, hfirst _ _ ha,
        hmore 1 _ _ (by omega) (by omega) hb,
        hmore 2 _ _ (by omega) (by omega) hc,
        hmore 3 _ _ (by omega) (by omega) hd, List.getD_cons_zero,
        List.getD_cons_succ, List.length_cons, List.length_nil, Nat.reduceMul,
        Nat.reduceSub, Nat.reduceAdd]
      generalize BitVec.ofNat 64 VersionSmall.suffixNone <<<
        VersionSmall.suffixVersionBitLen = suffix
      simp only [BitVec.or_assoc]
      rw [BitVec.or_comm suffix]
      simp only [BitVec.or_assoc]
  case cons.cons.cons.cons.cons =>
      simp only [List.length_cons] at hlength
      omega

/-- Where the fast path applies, it agrees with the grammar. -/
theorem outcome_parseFast {v : List Byte} {vpat : VersionPattern}
    (hfast : (Parser.new v).parseFast = some vpat) :
    outcome (.ok vpat) =
      (version.matchK atEnd (v.dropWhile Byte.isAsciiWhitespace) start).bind
        Groups.components := by
  unfold parseFast at hfast
  cases hloop : parseFastLoop v false 0 [] with
  | none => simp [Parser.new, hloop] at hfast
  | some numbers =>
      simp only [Parser.new, hloop, Option.some.injEq] at hfast
      obtain ⟨hlength, texts, hdotted, hnumbers⟩ :=
        parseFastLoop_spec v [] (by simp) (by simp [decimal]) hloop
      rw [List.nil_append] at hdotted hnumbers
      obtain ⟨hsplit, hmap, hbound⟩ := hdotted.splitOnP
      have hne : numbers ≠ [] := by
        rw [hnumbers]
        cases hdotted <;> simp
      obtain ⟨hdigits, hdotmatch⟩ := hdotted.matchK v start
      have hbang : startsWith "!" (v.dropWhile Byte.isAsciiDigit) = false := by
        rcases hdotted.dropWhile with hrest | ⟨rest, hrest⟩
        · rw [hrest]
          decide
        · rw [hrest, startsWith_bang]
          decide
      have hhead : v.dropWhile Byte.isAsciiWhitespace = v ∧
          startsWith "v" v = false := by
        cases v with
        | nil => simp at hdigits
        | cons byte rest =>
            have hdigit : Byte.isAsciiDigit byte = true := by
              by_contra hbyte
              simp [hbyte] at hdigits
            refine ⟨?_, startsWith_digit (Spelling.of_head (by decide)) hdigit
              rest⟩
            simp [(isDigit_facts byte hdigit).2.2.1]
      have hclose : closeRelease v [] start =
          some { start with release := some v } := by
        unfold closeRelease
        rw [afterRelease_nil]
        simp
      rw [hhead.1, matchK_version, hhead.2, if_neg (by decide),
        fromEpoch_eq hdigits, hbang, if_neg (by decide), hdotmatch, hclose,
        ← hfast, small_eq_new hne hlength (by rw [hnumbers]; exact hbound)]
      simp only [outcome, Version.makeFull_new, Option.bind_some]
      rw [hnumbers]
      simp only [Groups.components, Groups.readRelease, Option.getD_some, hsplit,
        hmap]
      rfl

/-! ## Whitespace -/

section Whitespace

private theorem avoids_text {literal : String}
    (hliteral : (ascii literal).any Byte.isAsciiWhitespace = false) :
    (text literal).Avoids Byte.isAsciiWhitespace := by
  have hlower : ∀ b : Byte, Byte.isAsciiWhitespace (Byte.toAsciiLowercase b) =
      Byte.isAsciiWhitespace b := by
    decide +kernel
  apply Regex.avoids_literal
  intro byte hbyte other hother
  rw [Bool.eq_false_iff]
  intro heq
  have hsame := congrArg Byte.isAsciiWhitespace (eq_of_beq heq)
  rw [List.any_eq_false] at hliteral
  rw [hlower, hlower, hother] at hsame
  exact hliteral byte hbyte hsame

private theorem avoids_digits : digits.Avoids Byte.isAsciiWhitespace := by
  have hdigit : ∀ b : Byte, Byte.isAsciiWhitespace b = true →
      Byte.isAsciiDigit b = false := by
    decide +kernel
  exact ⟨hdigit, hdigit⟩

private theorem avoids_spelled {recordL recordN : Groups → List Byte → Groups}
    {spellings : List String}
    (hspellings : ∀ literal ∈ spellings,
      (ascii literal).any Byte.isAsciiWhitespace = false) :
    (spelled recordL recordN spellings).Avoids Byte.isAsciiWhitespace := by
  have hseparator : ∀ b : Byte, Byte.isAsciiWhitespace b = true →
      isSeparator b = false := by
    decide +kernel
  refine ⟨⟨hseparator, trivial⟩, ?_, ⟨hseparator, trivial⟩, avoids_digits,
    trivial⟩
  apply Regex.avoids_alternatives
  intro body hbody
  obtain ⟨literal, hliteral, rfl⟩ := List.mem_map.mp hbody
  exact avoids_text (hspellings literal hliteral)

/-- The expression reads no white space. -/
theorem avoids_version : version.Avoids Byte.isAsciiWhitespace := by
  have hseparator : ∀ b : Byte, Byte.isAsciiWhitespace b = true →
      isSeparator b = false := by
    decide +kernel
  have halnum : ∀ b : Byte, Byte.isAsciiWhitespace b = true →
      Byte.isAsciiAlphanumeric b = false := by
    decide +kernel
  refine ⟨⟨avoids_text (by decide), trivial⟩,
    ⟨⟨avoids_digits, avoids_text (by decide)⟩, trivial⟩,
    ⟨avoids_digits, avoids_text (by decide), avoids_digits⟩,
    ⟨avoids_spelled (by decide), trivial⟩,
    ⟨⟨⟨avoids_text (by decide), avoids_digits⟩, avoids_spelled (by decide)⟩,
      trivial⟩,
    ⟨avoids_spelled (by decide), trivial⟩,
    ⟨avoids_text (by decide), ⟨halnum, halnum⟩, hseparator, halnum, halnum⟩,
    trivial⟩

end Whitespace

/-- Leading and trailing whitespace apart, a complete match of the expression is
what the stages of the parser look for. -/
theorem matchK_atEnd (v : List Byte) :
    version.matchK atEnd (v.dropWhile Byte.isAsciiWhitespace) start =
      version.firstMatch start (strip v) := by
  obtain ⟨input, hinput⟩ : ∃ input, input = v.dropWhile Byte.isAsciiWhitespace :=
    ⟨_, rfl⟩
  have hstrip : strip v = input.rdropWhile Byte.isAsciiWhitespace := by
    rw [hinput]
    rfl
  obtain ⟨tail, htail⟩ : ∃ tail, tail =
      (input.reverse.takeWhile Byte.isAsciiWhitespace).reverse := ⟨_, rfl⟩
  have hspace : ∀ byte ∈ tail, Byte.isAsciiWhitespace byte = true := by
    intro byte hbyte
    rw [htail, List.mem_reverse] at hbyte
    exact List.mem_takeWhile_imp hbyte
  have happend : input = strip v ++ tail := by
    rw [hstrip, htail, List.rdropWhile, ← List.reverse_append,
      List.takeWhile_append_dropWhile, List.reverse_reverse]
  rw [← hinput, happend, Regex.matchK_append _ version avoids_version]
  · unfold Regex.firstMatch
    apply Regex.matchK_congr
    intro rest groups hrest
    cases rest using List.reverseRecOn with
    | nil =>
        simp only [List.nil_append, atEnd, List.isEmpty_nil, if_true]
        rw [if_pos (List.all_eq_true.mpr hspace)]
    | append_singleton rest byte =>
        have hbyte : Byte.isAsciiWhitespace byte = false := by
          have hne : input.rdropWhile Byte.isAsciiWhitespace ≠ [] := by
            intro hnil
            rw [hstrip, hnil, List.suffix_nil] at hrest
            simp at hrest
          have hlast := List.rdropWhile_last_not Byte.isAsciiWhitespace input hne
          obtain ⟨front, hfront⟩ := hrest
          rw [← List.append_assoc, hstrip] at hfront
          have hsame := List.getLast_congr (by simp) hne hfront
          rw [List.getLast_append_singleton] at hsame
          rw [hsame]
          simpa using hlast
        simp [atEnd, hbyte]
  · intro byte hbyte
    exact hspace byte (List.mem_of_mem_head? hbyte)

/-- The parser reads the grammar. -/
theorem outcome_parsePattern (v : List Byte) :
    outcome (Parser.new v).parsePattern =
      (version.firstMatch start (strip v)).bind Groups.components := by
  rw [← matchK_atEnd]
  unfold parsePattern
  cases hfast : (Parser.new v).parseFast with
  | some vpat => exact outcome_parseFast hfast
  | none => exact outcome_parseSlow v

end Parser

/-- Parsing a verbatim version succeeds exactly when the outcome of the pattern
parser is a version. -/
theorem Version.makeFull_fromStr (v : List Byte) :
    (Version.fromStr v).toOption.map Version.makeFull =
      (version.firstMatch start (strip v)).bind Groups.components := by
  rw [← Parser.outcome_parsePattern]
  unfold Version.fromStr Parser.parse
  cases (Parser.new v).parsePattern with
  | error err => cases err <;> rfl
  | ok vpat =>
      cases hwildcard : vpat.wildcard <;>
        simp only [Parser.outcome, hwildcard] <;> rfl

namespace Groups

theorem isSome_number (digits : List Byte) :
    (number digits).isSome ↔ decimal digits ≤ u64Max := by
  unfold number
  split <;> simp_all

theorem isSome_numberOrZero (digits : Option (List Byte)) :
    (numberOrZero digits).isSome ↔ ∀ text ∈ digits.toList,
      decimal text ≤ u64Max := by
  cases digits with
  | none => simp [numberOrZero]
  | some text => simpa [numberOrZero] using isSome_number text

theorem isSome_mapM_number (texts : List (List Byte)) :
    (texts.mapM number).isSome ↔ ∀ text ∈ texts, decimal text ≤ u64Max := by
  induction texts with
  | nil => simp
  | cons text texts ih =>
      rw [List.mapM_cons, List.forall_mem_cons, ← ih, ← isSome_number]
      cases number text <;> cases texts.mapM number <;> simp

theorem isSome_readPre (groups : Groups) :
    groups.readPre.isSome ↔ ∀ text ∈ (if groups.preL.isSome then
      groups.preN.toList else []), decimal text ≤ u64Max := by
  unfold readPre
  cases groups.preL with
  | none => simp
  | some letters => simpa using isSome_numberOrZero groups.preN

theorem isSome_readPost (groups : Groups) :
    groups.readPost.isSome ↔ ∀ text ∈ groups.postNumerals,
      decimal text ≤ u64Max := by
  unfold readPost postNumerals
  cases groups.postN1 with
  | some digits => simpa using isSome_number digits
  | none =>
      cases groups.postL with
      | none => simp
      | some letters => simpa using isSome_numberOrZero groups.postN2

theorem isSome_readDev (groups : Groups) :
    groups.readDev.isSome ↔ ∀ text ∈ (if groups.devL.isSome then
      groups.devN.toList else []), decimal text ≤ u64Max := by
  unfold readDev
  cases groups.devL with
  | none => simp
  | some letters => simpa using isSome_numberOrZero groups.devN

/-- The components exist exactly when every number is in range. -/
theorem isSome_components (groups : Groups) :
    groups.components.isSome ↔ groups.InRange := by
  unfold InRange numerals
  simp only [List.forall_mem_append]
  rw [← isSome_readDev, ← isSome_readPost, ← isSome_readPre,
    ← isSome_numberOrZero, ← isSome_mapM_number]
  change _ ↔ (((groups.readEpoch.isSome ∧ groups.readRelease.isSome) ∧ _) ∧ _) ∧ _
  unfold components
  cases groups.readEpoch <;> cases groups.readRelease <;>
    cases groups.readPre <;> cases groups.readPost <;>
    cases groups.readDev <;> simp

end Groups

namespace Version

/-- The parser accepts exactly the words of the PEP 440 grammar, after
stripping, whose numbers outside the local part are in range; what it returns
are the components of the expression's first match in backtracking order. -/
theorem fromStr_accepts_grammar (s : List Byte) :
    ((fromStr s).toOption.isSome = true ↔
        ∃ groups, version.firstMatch start (strip s) = some groups ∧
          groups.InRange) ∧
      ((version.firstMatch start (strip s)).isSome = true ↔
        version.Accepts start (strip s)) ∧
      (fromStr s).toOption.map makeFull =
        (version.firstMatch start (strip s)).bind Groups.components := by
  have hfull := makeFull_fromStr s
  refine ⟨?_, Regex.isSome_firstMatch _ _ _, hfull⟩
  have hsome : (fromStr s).toOption.isSome =
      ((fromStr s).toOption.map makeFull).isSome := by
    rw [Option.isSome_map]
  rw [hsome, hfull]
  cases version.firstMatch start (strip s) with
  | none => simp
  | some groups => simp [Groups.isSome_components]

end Version

end Uv.Pep440
