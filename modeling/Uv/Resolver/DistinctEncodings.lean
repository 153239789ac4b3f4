import Uv.PypiTypes.Conflicts
import Uv.Resolver.RawExtra

/-!
# Distinct encodings

No two items have one encoding, also where a name is empty: what is encoded then has two
dashes in a row, of which normalizing keeps one.
-/

namespace Uv.Resolver

open Uv.Core Uv.Pep508 Uv.PlatformTags

/-! ## What an encoding is made of -/

/-- The kind of the item, as it is written. -/
def writtenKind (item : ConflictItem) : String :=
  match item.kind with
  | .extra _ => "extra"
  | .group _ => "group"
  | .project => "project"

/-- What follows the name of the package. -/
def writtenRest (item : ConflictItem) : Text :=
  match item.kind with
  | .extra name => '-' :: name.text
  | .group name => '-' :: name.text
  | .project => []

theorem writtenRest_cases (item : ConflictItem) :
    writtenRest item = [] ∨ ∃ rest, writtenRest item = '-' :: rest := by
  unfold writtenRest
  cases item.kind with
  | project => exact .inl rfl
  | _ => exact .inr ⟨_, rfl⟩

theorem encodedText_eq (item : ConflictItem) :
    encodedText item = encodedFields (writtenKind item) item.package (writtenRest item) := by
  unfold encodedText writtenKind writtenRest
  cases item.kind <;> rfl

theorem eq_of_written {item other : ConflictItem} (hkind : writtenKind item = writtenKind other)
    (hpackage : item.package.text = other.package.text)
    (hrest : writtenRest item = writtenRest other) : item = other := by
  obtain ⟨package, kind⟩ := item
  obtain ⟨package', kind'⟩ := other
  obtain rfl := Name.text_injective hpackage
  cases kind <;> cases kind' <;> simp only [writtenKind, String.reduceEq] at hkind
  · rw [Name.text_injective (List.cons.inj hrest).2]
  · rw [Name.text_injective (List.cons.inj hrest).2]
  · rfl

theorem replaceRuns_append {word : Text} (hword : ∀ c ∈ word, nameChar c = .plain)
    (rest : Text) : replaceRuns (word ++ rest) = word ++ replaceRuns rest := by
  induction word with
  | nil => rfl
  | cons c word ih =>
      obtain ⟨hc, hword⟩ := List.forall_mem_cons.mp hword
      have hseparator : isNameSeparator c = false := by
        rw [isNameSeparator_eq_endsInPunctuation, not_endsInPunctuation hc]
      rw [List.cons_append, replaceRuns_word hseparator, toLower_of_plain hc, ih hword,
        List.cons_append]

/-- A name keeps its text. -/
theorem replaceRuns_of_isNormalized {name : Text} (hname : isNormalized name = some true) :
    replaceRuns name = name := by
  by_cases hempty : name = []
  · rw [hempty, replaceRuns]
  · exact (((readsName_iff_ne_nil name).mpr hempty).normalizes ⟨name, hname⟩
      (Name.fromStr_text ⟨name, hname⟩)).symm

theorem dropWhile_plain {c : Char} (hc : nameChar c = .plain) (rest : Text) :
    (c :: rest).dropWhile isNameSeparator = c :: rest := by
  rw [List.dropWhile_cons_of_neg]
  rw [isNameSeparator_eq_endsInPunctuation, not_endsInPunctuation hc]
  exact Bool.false_ne_true

/-- A name does not start with a dash. -/
theorem dropWhile_of_isNormalized {name : Text} (hname : isNormalized name = some true) :
    name.dropWhile isNameSeparator = name := by
  cases name with
  | nil => rfl
  | cons c rest => exact dropWhile_plain (plain_of_isNormalized_cons hname).1 rest

/-- A name does not end in a dash. -/
theorem not_isNormalized_concat_dash (before : Text) :
    validateAndNormalize (before ++ ['-']) = none := by
  rw [validateAndNormalize_eq_normalize, ← Option.not_isSome_iff_eq_none,
    Option.isSome_iff_exists]
  rintro ⟨text, htext⟩
  cases before with
  | nil => exact absurd htext (by simp [normalize, normalizeLoop, nameChar])
  | cons first before =>
      rw [List.cons_append, normalize_cons] at htext
      have hlast := htext.1.2.2
      simp [isNameSeparator] at hlast

/-- The rest of an encoding after the length of the package's name; the dash after an empty
name is one with the dash before it. -/
def writtenTail (item : ConflictItem) : Text :=
  if item.package.text = [] then (writtenRest item).tail
  else item.package.text ++ writtenRest item

/-- The name of the package and what follows it, where they do not end in a dash. -/
theorem replaceRuns_package_rest {item : ConflictItem}
    (hrest : writtenRest item ≠ ['-']) :
    replaceRuns ((item.package.text ++ writtenRest item).dropWhile isNameSeparator) =
      writtenTail item := by
  have hkept : ∀ {name : Text}, isNormalized name = some true →
      replaceRuns (name.dropWhile isNameSeparator) = name := by
    intro name hname
    rw [dropWhile_of_isNormalized hname, replaceRuns_of_isNormalized hname]
  have hnamed : ∀ name : Name, '-' :: name.text ≠ ['-'] → replaceRuns
      ((item.package.text ++ '-' :: name.text).dropWhile isNameSeparator) =
        if item.package.text = [] then name.text else item.package.text ++ '-' :: name.text := by
    intro name hne
    split
    · rename_i hpackage
      rw [hpackage, List.nil_append, List.dropWhile_cons_of_pos (by decide)]
      exact hkept name.normalized
    · rename_i hpackage
      exact hkept (isNormalized_dash item.package.normalized hpackage name.normalized
        fun hnil => hne (by rw [hnil]))
  unfold writtenTail
  unfold writtenRest at hrest ⊢
  cases hkind : item.kind with
  | extra name =>
      rw [hkind] at hrest
      exact hnamed name hrest
  | group name =>
      rw [hkind] at hrest
      exact hnamed name hrest
  | project =>
      simp only [List.append_nil, List.tail_nil]
      split
      · rename_i hpackage
        rw [hpackage, List.dropWhile_nil, replaceRuns]
      · exact hkept item.package.normalized

/-- A dash between a word and the rest. -/
theorem replaceRuns_fields {word : Text} (hword : ∀ c ∈ word, nameChar c = .plain)
    (rest : Text) : replaceRuns (word ++ '-' :: rest) =
      word ++ '-' :: replaceRuns (rest.dropWhile isNameSeparator) := by
  rw [replaceRuns_append hword, replaceRuns_separator (by decide)]

/-! ## Encodings are distinct -/

/-- What any item is encoded as. -/
theorem encodeConflictItem_eq_some {item : ConflictItem} {name : Text}
    (hname : encodeConflictItem item = some name) :
    name = (writtenKind item).toList ++ '-' ::
        (Nat.toDigits 10 item.package.text.length ++ '-' :: writtenTail item) ∧
      (item.package.text = [] → ∃ rest, writtenRest item = '-' :: rest) := by
  have hkind : ∀ c ∈ (writtenKind item).toList, nameChar c = .plain := by
    unfold writtenKind
    cases item.kind <;> simp <;> decide
  have hdigits : ∀ c ∈ Nat.toDigits 10 item.package.text.length, nameChar c = .plain :=
    fun c hc => nameChar_of_isDigit (Nat.isDigit_of_mem_toDigits (by decide) (by decide) hc)
  rw [encodeConflictItem_eq_validateAndNormalize, encodedText_eq, encodedFields] at hname
  -- Otherwise the text ends in a dash.
  have hends : ∀ tail before : Text, '-' :: tail = before ++ ['-'] →
      item.package.text ++ writtenRest item ≠ tail := by
    intro tail before htail heq
    have hnone := not_isNormalized_concat_dash ((writtenKind item).toList ++
      '-' :: (Nat.toDigits 10 item.package.text.length ++ before))
    rw [heq, htail] at hname
    rw [List.append_assoc, List.cons_append, List.append_assoc, hname] at hnone
    cases hnone
  have hrest : writtenRest item ≠ ['-'] := by
    intro hdash
    exact hends (item.package.text ++ ['-']) ('-' :: item.package.text) rfl (by rw [hdash])
  have hnamed : item.package.text = [] → ∃ rest, writtenRest item = '-' :: rest := by
    intro hempty
    refine (writtenRest_cases item).resolve_left fun hnil => hends [] [] rfl ?_
    rw [hempty, hnil, List.nil_append]
  refine ⟨?_, hnamed⟩
  have hnormal : name = replaceRuns _ :=
    ((readsName_iff_ne_nil _).mpr (by simp)).normalizes
      ⟨name, isNormalized_of_validateAndNormalize hname⟩ (Name.fromStr_eq_some_iff.mpr hname)
  obtain ⟨digit, digits, hcons⟩ := List.exists_cons_of_ne_nil
    (Nat.toDigits_ne_nil (b := 10) (n := item.package.text.length))
  rw [hnormal, replaceRuns_fields hkind, hcons, List.cons_append,
    dropWhile_plain (hdigits digit (hcons ▸ List.mem_cons_self)), ← List.cons_append, ← hcons,
    replaceRuns_fields hdigits, replaceRuns_package_rest hrest]

/-- No two items have one encoding. -/
theorem encodeConflictItem_injective {item other : ConflictItem} {name : Text}
    (hitem : encodeConflictItem item = some name) (hother : encodeConflictItem other = some name) :
    item = other := by
  have hdash : ∀ item : ConflictItem, '-' ∉ (writtenKind item).toList := by
    intro item
    unfold writtenKind
    cases item.kind <;> simp
  have hdigits : ∀ n : ℕ, '-' ∉ Nat.toDigits 10 n := by
    intro n hmem
    exact absurd (Nat.isDigit_of_mem_toDigits (by decide) (by decide) hmem) (by decide)
  obtain ⟨hname, hempty⟩ := encodeConflictItem_eq_some hitem
  obtain ⟨hname', hempty'⟩ := encodeConflictItem_eq_some hother
  have hsplit := splitOnce_append (hdash item)
    (Nat.toDigits 10 item.package.text.length ++ '-' :: writtenTail item)
  rw [← hname, hname', splitOnce_append (hdash other), Option.some.injEq, Prod.mk.injEq] at hsplit
  obtain ⟨hkind, hfields⟩ := hsplit
  have hsplit' := splitOnce_append (hdigits item.package.text.length) (writtenTail item)
  rw [← hfields, splitOnce_append (hdigits _), Option.some.injEq, Prod.mk.injEq] at hsplit'
  obtain ⟨hlength, htail⟩ := hsplit'
  have hlength : item.package.text.length = other.package.text.length := by
    simpa only [Nat.ofDigitChars_ten_toDigits] using
      (congrArg (Nat.ofDigitChars 10 · 0) hlength).symm
  -- The fields of the tail are as long as each other.
  have htails : item.package.text = other.package.text ∧
      writtenRest item = writtenRest other := by
    unfold writtenTail at htail
    by_cases hpackage : item.package.text = []
    · have hpackage' : other.package.text = [] := by
        rw [← List.length_eq_zero_iff, ← hlength, hpackage, List.length_nil]
      obtain ⟨rest, hrest⟩ := hempty hpackage
      obtain ⟨rest', hrest'⟩ := hempty' hpackage'
      rw [if_pos hpackage, if_pos hpackage', hrest, hrest', List.tail_cons, List.tail_cons]
        at htail
      exact ⟨hpackage.trans hpackage'.symm, by rw [hrest, hrest', htail]⟩
    · have hpackage' : other.package.text ≠ [] := by
        rwa [ne_eq, ← List.length_eq_zero_iff, ← hlength, List.length_eq_zero_iff]
      rw [if_neg hpackage, if_neg hpackage'] at htail
      exact List.append_inj htail.symm hlength
  exact eq_of_written (String.toList_injective hkind.symm) htails.1 htails.2

end Uv.Resolver
