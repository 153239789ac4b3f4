import Uv.NameLaws
import Uv.Core.Regex

/-!
# The grammar of names

The names that are accepted, as a regular expression, and what they are
normalized to.  Reading a name takes a scan that stops at the first character to
rewrite and, if there is one, a second scan that rewrites; the two accept the
same texts.
-/

namespace Uv

open Uv.Core

def isNameAlphanumeric (c : Char) : Bool :=
  ('A' ≤ c && c ≤ 'Z') || ('a' ≤ c && c ≤ 'z') || ('0' ≤ c && c ≤ '9')

def isNameSeparator (c : Char) : Bool := c = '-' || c = '_' || c = '.'

/-- `[A-Za-z0-9]([A-Za-z0-9._-]*[A-Za-z0-9])?`. -/
def nameRegex : Regex Char Unit :=
  .seq (.symbol isNameAlphanumeric) (Regex.opt
    (.seq (.star (.symbol fun c => isNameAlphanumeric c || isNameSeparator c))
      (.symbol isNameAlphanumeric)))

/-- Lower case, and one dash for every run of separators. -/
def replaceRuns : List Char → List Char
  | [] => []
  | c :: rest =>
      if isNameSeparator c then '-' :: replaceRuns (rest.dropWhile isNameSeparator)
      else c.toLower :: replaceRuns rest
  termination_by name => name.length
  decreasing_by
    · exact Nat.lt_succ_of_le (List.dropWhile_sublist _).length_le
    · exact Nat.lt_succ_self _

/-! ## Characters -/

theorem isNameAlphanumeric_eq_isWord (c : Char) : isNameAlphanumeric c = isWord c := by
  unfold isNameAlphanumeric isWord nameChar
  split_ifs <;> simp_all [or_assoc]

theorem isNameSeparator_eq_endsInPunctuation (c : Char) :
    isNameSeparator c = endsInPunctuation (some c) := by
  change isNameSeparator c = (decide (nameChar c = .dash) || decide (nameChar c = .punctuation))
  by_cases hword : isWord c = true
  · have hne : c ≠ '-' ∧ c ≠ '_' ∧ c ≠ '.' := by
      refine ⟨?_, ?_, ?_⟩ <;> rintro rfl <;> exact absurd hword (by decide)
    simp only [isWord, Bool.or_eq_true, decide_eq_true_eq] at hword
    rcases hword with hword | hword <;> simp [isNameSeparator, hne, hword]
  · simp only [isWord, nameChar] at hword
    simp only [isNameSeparator, nameChar]
    split_ifs at hword ⊢ <;> simp_all

/-- A letter in lower case or a digit stays as it is. -/
theorem toLower_of_plain {c : Char} (hc : nameChar c = .plain) : c.toLower = c := by
  unfold Char.toLower
  split
  · rename_i hupper
    have hrange : 'A' ≤ c ∧ c ≤ 'Z' := hupper
    rw [nameChar, if_pos hrange] at hc
    cases hc
  · rfl

/-! ## The rewriting scan -/

theorem replaceRuns_word {c : Char} (hc : isNameSeparator c = false) (rest : List Char) :
    replaceRuns (c :: rest) = c.toLower :: replaceRuns rest := by
  rw [replaceRuns, hc, if_neg Bool.false_ne_true]

theorem replaceRuns_separator {c : Char} (hc : isNameSeparator c = true) (rest : List Char) :
    replaceRuns (c :: rest) = '-' :: replaceRuns (rest.dropWhile isNameSeparator) := by
  rw [replaceRuns, if_pos hc]

/-- The characters after the first one of a name that starts with `first`. -/
def ContinuesName (first : Char) (rest : List Char) : Prop :=
  (∀ c ∈ rest, isNameAlphanumeric c = true ∨ isNameSeparator c = true) ∧
    isNameSeparator (rest.getLast?.getD first) = false

theorem continuesName_cons {first c : Char} {rest : List Char} :
    ContinuesName first (c :: rest) ↔
      (isNameAlphanumeric c = true ∨ isNameSeparator c = true) ∧ ContinuesName c rest := by
  have hlast : (c :: rest).getLast?.getD first = rest.getLast?.getD c := by
    cases rest with
    | nil => rfl
    | cons d rest =>
        rw [List.getLast?_cons_cons, List.getLast?_eq_some_getLast (List.cons_ne_nil d rest)]
        rfl
  rw [ContinuesName, ContinuesName, hlast, List.forall_mem_cons, and_assoc]

/-- From the second character on, the scan accepts what continues a name; inside
a run of separators it has written the dash already. -/
theorem normalizeLoop_spec (rest : List Char) (last : Char) (normalized text : List Char) :
    normalizeLoop rest (some last) normalized = some text ↔ ContinuesName last rest ∧
      text = normalized ++ replaceRuns
        (if isNameSeparator last then rest.dropWhile isNameSeparator else rest) := by
  induction rest generalizing last normalized with
  | nil =>
      rw [normalizeLoop, ← isNameSeparator_eq_endsInPunctuation]
      have hempty : replaceRuns [] = [] := by rw [replaceRuns]
      cases hlast : isNameSeparator last with
      | true => simp [ContinuesName, hlast]
      | false =>
          simp only [Bool.false_eq_true, if_false, hempty, Option.some.injEq, List.append_nil]
          exact ⟨fun h => ⟨⟨by simp, hlast⟩, h.symm⟩, fun h => h.2.symm⟩
  | cons c rest ih =>
      rw [continuesName_cons, isNameAlphanumeric_eq_isWord]
      cases hc : nameChar c with
      | upper =>
          have hseparator : isNameSeparator c = false := by
            simp [isNameSeparator_eq_endsInPunctuation, endsInPunctuation, hc]
          simp only [normalizeLoop, hc, ih, hseparator]
          simp [isWord, hc, replaceRuns_word hseparator, hseparator]
      | plain =>
          have hseparator : isNameSeparator c = false := by
            simp [isNameSeparator_eq_endsInPunctuation, endsInPunctuation, hc]
          simp only [normalizeLoop, hc, ih, hseparator]
          simp [isWord, hc, replaceRuns_word hseparator, hseparator, toLower_of_plain hc]
      | other =>
          simp [normalizeLoop, hc, isWord, isNameSeparator_eq_endsInPunctuation,
            endsInPunctuation]
      | dash | punctuation =>
          have hseparator : isNameSeparator c = true := by
            simp [isNameSeparator_eq_endsInPunctuation, endsInPunctuation, hc]
          simp only [normalizeLoop, hc, ← isNameSeparator_eq_endsInPunctuation]
          cases hlast : isNameSeparator last with
          | true => simp [ih, hseparator]
          | false => simp [ih, hseparator, replaceRuns_separator hseparator]

/-- A text with a first character is accepted by the rewriting scan as the
grammar says. -/
theorem normalize_cons (first : Char) (rest text : List Char) :
    normalize (first :: rest) = some text ↔
      (isNameAlphanumeric first = true ∧ ContinuesName first rest) ∧
        text = replaceRuns (first :: rest) := by
  rw [isNameAlphanumeric_eq_isWord]
  cases hc : nameChar first with
  | upper =>
      have hseparator : isNameSeparator first = false := by
        simp [isNameSeparator_eq_endsInPunctuation, endsInPunctuation, hc]
      simp only [normalize, normalizeLoop, hc, normalizeLoop_spec, hseparator]
      simp [isWord, hc, replaceRuns_word hseparator]
  | plain =>
      have hseparator : isNameSeparator first = false := by
        simp [isNameSeparator_eq_endsInPunctuation, endsInPunctuation, hc]
      simp only [normalize, normalizeLoop, hc, normalizeLoop_spec, hseparator]
      simp [isWord, hc, replaceRuns_word hseparator, toLower_of_plain hc]
  | _ => simp [normalize, normalizeLoop, hc, isWord]

/-! ## The fast path -/

/-- Where the fast path decides, the rewriting scan agrees: it keeps what is
normalized and refuses what is refused. -/
theorem normalizeLoop_of_isNormalizedLoop {rest : List Char} {last : Char}
    {normalized : List Char} (hlast : endsInPunctuation (some last) = true → last = '-') :
    (isNormalizedLoop rest (some last) = some true →
      normalizeLoop rest (some last) normalized = some (normalized ++ rest)) ∧
    (isNormalizedLoop rest (some last) = none →
      normalizeLoop rest (some last) normalized = none) := by
  induction rest generalizing last normalized with
  | nil =>
      rw [isNormalizedLoop, normalizeLoop, List.append_nil]
      split <;> simp
  | cons c rest ih =>
      rw [isNormalizedLoop, normalizeLoop]
      cases hc : nameChar c with
      | upper => simp
      | punctuation => simp
      | other => simp
      | plain =>
          have hnext := @ih c (normalized ++ [c]) (by simp [not_endsInPunctuation hc])
          rwa [List.append_assoc] at hnext
      | dash =>
          obtain rfl := eq_dash hc
          simp only
          by_cases hdash : last = '-'
          · simp [hdash]
          · have hword : ¬ endsInPunctuation (some last) = true := fun h => hdash (hlast h)
            rw [if_neg hdash, if_neg hword]
            have hnext := @ih '-' (normalized ++ ['-']) fun _ => rfl
            rwa [List.append_assoc] at hnext

/-- The two paths accept the same texts and agree on them. -/
theorem validateAndNormalize_eq_normalize (name : List Char) :
    validateAndNormalize name = normalize name := by
  cases name with
  | nil => rfl
  | cons first rest =>
      have hpaths : (isNormalized (first :: rest) = some true →
          normalize (first :: rest) = some (first :: rest)) ∧
          (isNormalized (first :: rest) = none → normalize (first :: rest) = none) := by
        rw [isNormalized, isNormalizedLoop, normalize, normalizeLoop]
        cases hc : nameChar first with
        | plain =>
            exact normalizeLoop_of_isNormalizedLoop (by simp [not_endsInPunctuation hc])
        | _ => simp
      unfold validateAndNormalize
      cases hname : isNormalized (first :: rest) with
      | none => exact (hpaths.2 hname).symm
      | some normalized =>
          cases normalized with
          | true => exact (hpaths.1 hname).symm
          | false => rfl

/-! ## The expression -/

theorem not_isNameSeparator {c : Char} (hc : isNameAlphanumeric c = true) :
    isNameSeparator c = false := by
  rw [isNameAlphanumeric_eq_isWord] at hc
  by_contra hseparator
  rw [Bool.not_eq_false, isNameSeparator_eq_endsInPunctuation] at hseparator
  simp only [endsInPunctuation, Bool.or_eq_true, decide_eq_true_eq] at hseparator
  rw [isWord_eq_false hseparator] at hc
  cases hc

theorem nameRegex_cons (first : Char) (rest : List Char) :
    nameRegex.Accepts () (first :: rest) ↔
      isNameAlphanumeric first = true ∧ ContinuesName first rest := by
  constructor
  · rintro ⟨_, hderives⟩
    cases hderives with
    | seq hfirst hrest =>
    obtain ⟨-, head, heq, hhead⟩ := Regex.derives_symbol_iff.mp hfirst
    obtain ⟨rfl, rfl⟩ := List.cons.inj heq
    refine ⟨hhead, ?_⟩
    cases hrest with
    | altRight hempty =>
        cases hempty
        exact ⟨by simp, not_isNameSeparator hhead⟩
    | altLeft hmore =>
        cases hmore with
        | seq hstar hlast =>
        obtain ⟨-, read, rfl, hread⟩ := hstar.exists_starSymbol
        obtain ⟨-, last, rfl, hword⟩ := Regex.derives_symbol_iff.mp hlast
        refine ⟨List.forall_mem_append.mpr ⟨fun c hc => ?_, by simp [hword]⟩, ?_⟩
        · simpa using hread c hc
        · simp [not_isNameSeparator hword]
  · rintro ⟨hfirst, hchars, hlast⟩
    refine ⟨(), .seq (.symbol hfirst) ?_⟩
    rcases List.eq_nil_or_concat rest with rfl | ⟨read, last, rfl⟩
    · exact .altRight .empty
    · rw [List.concat_eq_append] at hchars hlast ⊢
      rw [List.forall_mem_append] at hchars
      have hword : isNameAlphanumeric last = true := by
        have hseparator : isNameSeparator last = false := by simpa using hlast
        simpa [hseparator] using hchars.2 last
      refine .altLeft (.seq (.starSymbol [last] () fun c hc => ?_) (.symbol hword))
      simpa using hchars.1 c hc

theorem not_nameRegex_nil : ¬ nameRegex.Accepts () [] := by
  rintro ⟨_, hderives⟩
  cases hderives with
  | seq hfirst _ =>
  obtain ⟨-, head, heq, -⟩ := Regex.derives_symbol_iff.mp hfirst
  cases heq

/-! ## Names -/

/-- What reading a text as a name should do: accept what the expression accepts
and normalize it, along either path, once and for all. -/
structure ReadsName (name : List Char) : Prop where
  accepts : (Name.fromStr name).isSome ↔ nameRegex.Accepts () name
  normalizes : ∀ read, Name.fromStr name = some read → read.text = replaceRuns name
  paths : validateAndNormalize name = normalize name ∧
    (isNormalized name = some true → normalize name = some name) ∧
    (isNormalized name = none → normalize name = none)
  idempotent : ∀ read, Name.fromStr name = some read → Name.fromStr read.text = some read

theorem Name.isSome_fromStr (name : List Char) :
    (Name.fromStr name).isSome ↔ ∃ text, normalize name = some text := by
  rw [← validateAndNormalize_eq_normalize, Option.isSome_iff_exists]
  constructor
  · rintro ⟨read, hread⟩
    exact ⟨read.text, Name.fromStr_eq_some_iff.mp hread⟩
  · rintro ⟨text, htext⟩
    exact ⟨⟨text, isNormalized_of_validateAndNormalize htext⟩,
      Name.fromStr_eq_some_iff.mpr htext⟩

/-- A name reads as itself. -/
theorem Name.fromStr_text (name : Name) : Name.fromStr name.text = some name := by
  rw [Name.fromStr_eq_some_iff, validateAndNormalize, name.normalized]

/-- Names are read as the grammar says, but for the empty text, which is read as
an empty name. -/
theorem readsName_iff_ne_nil (name : List Char) : ReadsName name ↔ name ≠ [] := by
  constructor
  · rintro hreads rfl
    exact not_nameRegex_nil (hreads.accepts.mp (by decide))
  · intro hne
    obtain ⟨first, rest, rfl⟩ := List.exists_cons_of_ne_nil hne
    have hpaths := validateAndNormalize_eq_normalize (first :: rest)
    refine ⟨?_, fun read hread => ?_, ⟨hpaths, fun htrue => ?_, fun hnone => ?_⟩,
      fun read _ => read.fromStr_text⟩
    · rw [Name.isSome_fromStr, nameRegex_cons]
      simp only [normalize_cons, exists_and_left, exists_eq, and_true]
    · rw [Name.fromStr_eq_some_iff, hpaths, normalize_cons] at hread
      exact hread.2
    · rw [← hpaths, validateAndNormalize, htrue]
    · rw [← hpaths, validateAndNormalize, hnone]

/-- The empty text is read as a name. -/
theorem not_readsName_nil : ¬ ReadsName [] ∧ Name.fromStr [] = some ⟨[], rfl⟩ := by
  refine ⟨fun hreads => ?_, by decide⟩
  exact not_nameRegex_nil (hreads.accepts.mp (by decide))

end Uv
