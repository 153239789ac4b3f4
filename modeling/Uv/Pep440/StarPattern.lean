import Uv.DistributionFilename.WheelDisplay
import Uv.Pep440.PrefixComparison

/-!
# Reading displayed versions with a star

A specifier with a star holds a bare release.  Displayed with the star behind it,
the general parser reads the epoch and the numbers, goes back to the dot before
the star, and takes the star as the end.
-/

namespace Uv.Pep440

open Uv.Core Grammar

namespace Parser

variable {parser : Parser}

/-- A displayed number is read to its end. -/
theorem parseNumber_displayNat {n : ℕ} {tail : List Byte}
    (hrest : parser.rest = displayNat n ++ tail) (htail : NoDigit tail)
    (hn : n ≤ u64Max) :
    ∃ count, parser.parseNumber = .ok (some n, parser.advance count) ∧
      (parser.advance count).rest = tail := by
  obtain ⟨htake, hdrop⟩ := takeWhile_displayNat n htail
  have hleading : leadingDigits parser.rest = some (displayNat n) := by
    rw [leadingDigits, hrest, htake, if_neg (displayNat_ne_nil n)]
  rcases parseNumber_cases parser with ⟨hnone, -⟩ |
    ⟨digits, m, count, hdigits, hm, hparse, hafter⟩ | ⟨digits, err, hdigits, hnone, -⟩
  · rw [hleading] at hnone
    cases hnone
  · rw [hleading, Option.some.injEq] at hdigits
    rw [← hdigits, number_displayNat hn, Option.some.injEq] at hm
    exact ⟨count, by rw [hparse, hm], by rw [hafter, hrest, hdrop]⟩
  · rw [hleading, Option.some.injEq] at hdigits
    rw [← hdigits, number_displayNat hn] at hnone
    cases hnone

theorem bumpIf_some_of_startsWith {literal : String} (hliteral : ascii literal ≠ [])
    (hstarts : startsWith literal parser.rest = true) :
    parser.bumpIf (ascii literal) = some (parser.advance (ascii literal).length) := by
  rw [bumpIf_eq parser hliteral, if_pos hstarts]

/-- The numbers after the first are read, up to the dot before the star. -/
theorem parseRestOfReleaseLoop_displayed {fuel : ℕ} {numbers : List ℕ}
    (hrest : parser.rest = (numbers.flatMap fun n => 46 :: displayNat n) ++ ascii ".*")
    (hnumbers : ∀ n ∈ numbers, n ≤ u64Max) (hfuel : numbers.length ≤ fuel) :
    ∃ i, parseRestOfReleaseLoop fuel parser =
        .ok { parser with i, release := parser.release ++ numbers } ∧
      parser.v.drop i = ascii ".*" := by
  have hone : (ascii ".").length = 1 := by decide
  have hdot : ∀ {parser : Parser} {tail}, parser.rest = 46 :: tail →
      parser.bumpIf (ascii ".") = some (parser.advance 1) ∧
        (parser.advance 1).rest = tail := by
    intro parser tail htail
    have hstarts : startsWith "." parser.rest = true := by
      rw [htail]
      rfl
    refine ⟨by rw [bumpIf_some_of_startsWith (by decide) hstarts, hone], ?_⟩
    rw [rest_advance, htail]
    rfl
  induction numbers generalizing fuel parser with
  | nil =>
      rw [List.flatMap_nil, List.nil_append] at hrest
      refine ⟨parser.i, ?_, hrest⟩
      rw [List.append_nil]
      cases fuel with
      | zero => rfl
      | succ fuel =>
          obtain ⟨hbump, hstar⟩ := hdot (hrest.trans rfl : parser.rest = 46 :: ascii "*")
          -- No number follows the dot, which is given back for the star.
          have hnone : (parser.advance 1).parseNumber = .ok (none, parser.advance 1) := by
            have hleading : leadingDigits (parser.advance 1).rest = none := by
              rw [hstar]
              decide
            rcases parseNumber_cases (parser.advance 1) with ⟨-, hparse⟩ |
              ⟨_, _, _, hdigits, -⟩ | ⟨_, _, hdigits, -⟩
            · exact hparse
            · rw [hleading] at hdigits
              cases hdigits
            · rw [hleading] at hdigits
              cases hdigits
          rw [parseRestOfReleaseLoop, hbump]
          simp only [hnone]
          rfl
  | cons n numbers ih =>
      obtain ⟨fuel, rfl⟩ := Nat.exists_eq_add_one_of_ne_zero (Nat.ne_zero_of_lt hfuel)
      rw [List.flatMap_cons, List.cons_append, List.cons_append, List.append_assoc] at hrest
      obtain ⟨hbump, hafter⟩ := hdot hrest
      have hdigit : NoDigit ((numbers.flatMap fun n => 46 :: displayNat n) ++
          ascii ".*") := by
        cases numbers with
        | nil => exact noDigit_cons (by decide) (ascii "*")
        | cons m numbers => exact noDigit_cons (by decide) _
      obtain ⟨hn, hnumbers⟩ := List.forall_mem_cons.mp hnumbers
      obtain ⟨count, hnumber, hafter⟩ := parseNumber_displayNat hafter hdigit hn
      rw [parseRestOfReleaseLoop, hbump]
      simp only [hnumber]
      have hpushed : ({ (parser.advance 1).advance count with
          release := parser.release ++ [n] } : Parser).rest =
            (numbers.flatMap fun n => 46 :: displayNat n) ++ ascii ".*" := hafter
      obtain ⟨i, hloop, hstar⟩ := ih hpushed hnumbers (Nat.le_of_succ_le_succ hfuel)
      refine ⟨i, ?_, hstar⟩
      rw [List.append_assoc, List.singleton_append] at hloop
      exact hloop

/-- The epoch and the first number are read. -/
theorem parseEpochAndInitialRelease_displayed {epoch n : ℕ} {tail : List Byte}
    (hrest : parser.rest = displayEpoch epoch ++ (displayNat n ++ tail))
    (htail : NoDigit tail) (hbang : startsWith "!" tail = false)
    (hepoch : epoch ≤ u64Max) (hn : n ≤ u64Max) (hnew : parser.epoch = 0) :
    ∃ i, parser.parseEpochAndInitialRelease =
        .ok { parser with i, epoch, release := parser.release ++ [n] } ∧
      parser.v.drop i = tail := by
  have hliteral : ascii "!" ≠ [] := by decide
  unfold displayEpoch at hrest
  split at hrest
  · have hmark : NoDigit (ascii "!" ++ (displayNat n ++ tail)) :=
      noDigit_cons (by decide) _
    rw [List.append_assoc] at hrest
    obtain ⟨count, hnumber, hafter⟩ := parseNumber_displayNat hrest hmark hepoch
    have hstarts : startsWith "!" (parser.advance count).rest = true := by
      rw [hafter]
      rfl
    have hbump := bumpIf_some_of_startsWith hliteral hstarts
    have hrelease : ((parser.advance count).advance (ascii "!").length).rest =
        displayNat n ++ tail := by
      rw [rest_advance, hafter, List.drop_left]
    obtain ⟨count', hnumber', hafter'⟩ := parseNumber_displayNat hrelease htail hn
    refine ⟨_, ?_, hafter'⟩
    unfold parseEpochAndInitialRelease
    simp only [hnumber, hbump, hnumber']
    rfl
  · rename_i hzero
    obtain ⟨count, hnumber, hafter⟩ := parseNumber_displayNat hrest htail hn
    have hbump : (parser.advance count).bumpIf (ascii "!") = none := by
      rw [bumpIf_eq _ hliteral, hafter, hbang, if_neg Bool.false_ne_true]
    refine ⟨_, ?_, hafter⟩
    unfold parseEpochAndInitialRelease
    simp only [hnumber, hbump]
    rw [not_ne_iff.mp hzero, ← hnew]
    rfl

/-- The fast path does not read a star. -/
theorem parseFast_eq_none {v : List Byte} (hstar : 42 ∈ v) :
    (Parser.new v).parseFast = none := by
  have hdotted : ∀ {text : List Byte} {texts : List (List Byte)}, Dotted text texts →
      ∀ byte ∈ text, Byte.isAsciiDigit byte = true ∨ byte = 46 := by
    intro text texts hdotted
    induction hdotted with
    | one hne hdigits hvalue => exact fun byte hbyte => .inl (hdigits byte hbyte)
    | cons hne hdigits hvalue hrest ih =>
        intro byte hbyte
        rcases List.mem_append.mp hbyte with hbyte | hbyte
        · exact .inl (hdigits byte hbyte)
        · rcases List.mem_cons.mp hbyte with rfl | hbyte
          · exact .inr rfl
          · exact ih byte hbyte
  unfold parseFast
  cases hloop : parseFastLoop (Parser.new v).v false 0 [] with
  | none => rfl
  | some numbers =>
      obtain ⟨-, texts, hread, -⟩ :=
        parseFastLoop_spec v [] (by simp) (by simp [decimal]) hloop
      rcases hdotted hread 42 hstar with hdigit | hdot
      · exact absurd hdigit (by decide)
      · exact absurd hdot (by decide)

/-- Nothing is skipped before a first digit. -/
theorem trim_of_digit {v rest : List Byte} {byte : Byte} (hhead : v = byte :: rest)
    (hdigit : Byte.isAsciiDigit byte = true) :
    (Parser.new v).bumpWhile Byte.isAsciiWhitespace = ([], Parser.new v) ∧
      (Parser.new v).bumpIf (ascii "v") = none := by
  have hrest : (Parser.new v).rest = byte :: rest := hhead
  have htaken : (Parser.new v).rest.takeWhile Byte.isAsciiWhitespace = [] := by
    rw [hrest]
    simp [(isDigit_facts byte hdigit).2.2.1]
  constructor
  · rw [bumpWhile, htaken]
    rfl
  · rw [bumpIf_eq _ (by decide), hrest,
      startsWith_digit (Spelling.of_head (by decide)) hdigit rest,
      if_neg Bool.false_ne_true]

/-- The star ends the input. -/
theorem parseWildcard_star (hrest : parser.rest = ascii ".*") :
    parser.parseWildcard = .ok (true, { parser.advance 2 with wildcard := true }) := by
  have hlength : (ascii ".*").length = 2 := by decide
  have hstarts : startsWith ".*" parser.rest = true := by
    rw [hrest]
    rfl
  have hdone : (parser.advance 2).isDone = true := by
    rw [isDone_iff, rest_advance, hrest]
    rfl
  rw [parseWildcard, bumpIf_some_of_startsWith (by decide) hstarts, hlength]
  simp only [hdone, if_true]

theorem length_le_flatMap_displayNat (numbers : List ℕ) (tail : List Byte) :
    numbers.length ≤ ((numbers.flatMap fun n => 46 :: displayNat n) ++ tail).length := by
  induction numbers with
  | nil => exact Nat.zero_le _
  | cons n numbers ih =>
      simp only [List.flatMap_cons, List.length_append, List.length_cons] at ih ⊢
      omega

end Parser

/-- A displayed release with a star behind it is read as that release with a
star. -/
theorem VersionPattern.fromStr_star {epoch : ℕ} {release : List ℕ}
    (hepoch : epoch ≤ u64Max) (hne : release ≠ []) (hrelease : ∀ n ∈ release, n ≤ u64Max) :
    ∃ vpat, VersionPattern.fromStr
        (displayEpoch epoch ++ (displayRelease release ++ ascii ".*")) = .ok vpat ∧
      vpat.wildcard = true ∧ vpat.version.makeFull =
        { epoch, release, pre := none, post := none, dev := none,
          localVersion := .empty, min := none, max := none } := by
  obtain ⟨n, numbers, rfl⟩ := List.exists_cons_of_ne_nil hne
  obtain ⟨hn, hnumbers⟩ := List.forall_mem_cons.mp hrelease
  obtain ⟨v, hv⟩ : ∃ v, v =
    displayEpoch epoch ++ (displayRelease (n :: numbers) ++ ascii ".*") := ⟨_, rfl⟩
  rw [← hv]
  have hstar : 42 ∈ v := by
    have hmem : (42 : Byte) ∈ ascii ".*" := by decide
    rw [hv]
    exact List.mem_append_right _ (List.mem_append_right _ hmem)
  obtain ⟨byte, rest, hhead, hdigit⟩ : ∃ byte rest, v = byte :: rest ∧
      Byte.isAsciiDigit byte = true := by
    rw [hv, displayEpoch, displayRelease_cons]
    split
    · rw [List.append_assoc]
      exact displayNat_head _ _
    · rw [List.nil_append, List.append_assoc]
      exact displayNat_head _ _
  obtain ⟨hspace, hletter⟩ := Parser.trim_of_digit hhead hdigit
  -- The epoch and the first number.
  have htail : NoDigit ((numbers.flatMap fun n => 46 :: displayNat n) ++ ascii ".*") ∧
      startsWith "!" ((numbers.flatMap fun n => 46 :: displayNat n) ++ ascii ".*") =
        false := by
    cases numbers with
    | nil => exact ⟨noDigit_cons (by decide) (ascii "*"), rfl⟩
    | cons m numbers => exact ⟨noDigit_cons (by decide) _, rfl⟩
  have hrest : (Parser.new v).rest = displayEpoch epoch ++ (displayNat n ++
      ((numbers.flatMap fun n => 46 :: displayNat n) ++ ascii ".*")) := by
    change v = _
    rw [hv, displayRelease_cons, List.append_assoc]
  obtain ⟨i, hfirst, hafter⟩ := Parser.parseEpochAndInitialRelease_displayed hrest htail.1
    htail.2 hepoch hn rfl
  obtain ⟨first, hfirstEq⟩ : ∃ first : Parser, first = { Parser.new v with
    i, epoch, release := (Parser.new v).release ++ [n] } := ⟨_, rfl⟩
  rw [← hfirstEq] at hfirst
  -- The other numbers, as far as the star.
  have hfirstRest : first.rest =
      (numbers.flatMap fun n => 46 :: displayNat n) ++ ascii ".*" := by
    rw [hfirstEq]
    exact hafter
  have hfuel : numbers.length ≤ first.rest.length := by
    rw [hfirstRest]
    exact Parser.length_le_flatMap_displayNat _ _
  obtain ⟨j, hloop, hend⟩ := Parser.parseRestOfReleaseLoop_displayed hfirstRest hnumbers hfuel
  obtain ⟨whole, hwhole⟩ : ∃ whole : Parser, whole = { first with
    i := j, release := first.release ++ numbers } := ⟨_, rfl⟩
  rw [← hwhole] at hloop
  have hwholeRest : whole.rest = ascii ".*" := by
    rw [hwhole]
    exact hend
  refine ⟨{ whole.advance 2 with wildcard := true }.intoPattern, ?_, rfl, ?_⟩
  · have hrelease : first.parseRestOfRelease = .ok whole := hloop
    rw [VersionPattern.fromStr, Parser.parsePattern, Parser.parseFast_eq_none hstar]
    unfold Parser.parseSlow
    simp only [hspace, hletter, Option.getD_none, hfirst, hrelease,
      Parser.parseWildcard_star hwholeRest, bind, Except.bind, if_true]
  · rw [Parser.makeFull_intoPattern, hwhole, hfirstEq]
    rfl

end Uv.Pep440
