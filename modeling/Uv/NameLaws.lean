import Uv.Normalize

/-!
# Laws of names

What `normalize` makes of a name is normalized, and it keeps the letters and digits.
-/

namespace Uv

/-! ## Characters -/

theorem nameChar_toLower {c : Char} (hupper : nameChar c = .upper) :
    nameChar c.toLower = .plain := by
  have hrange : 65 ≤ c.toNat ∧ c.toNat ≤ 90 := by
    unfold nameChar at hupper
    split at hupper
    · rename_i hle
      exact hle
    all_goals (repeat' split at hupper) <;> cases hupper
  obtain ⟨hlow, hhigh⟩ := hrange
  have hc : c = Char.ofNat c.toNat := (Char.ofNat_toNat c).symm
  generalize c.toNat = n at *
  subst hc
  interval_cases n <;> decide

theorem not_endsInPunctuation {c : Char} (hplain : nameChar c = .plain) :
    endsInPunctuation (some c) = false := by
  simp [endsInPunctuation, hplain]

theorem ne_dash {c : Char} (hplain : nameChar c = .plain) : c ≠ '-' := by
  rintro rfl
  exact absurd hplain (by decide)

/-! ## Normalizing -/

/-- What is known of the name so far, after the last character read. -/
structure NormalizedSoFar (last : Option Char) (normalized : List Char) : Prop where
  continues : ∀ rest,
    isNormalizedLoop (normalized ++ rest) none = isNormalizedLoop rest normalized.getLast?
  dash : endsInPunctuation last = true → normalized.getLast? = some '-'
  plain : endsInPunctuation last = false →
    ∀ c, normalized.getLast? = some c → nameChar c = .plain
  start : last = none ↔ normalized = []

theorem NormalizedSoFar.push {last : Option Char} {normalized : List Char} {read c : Char}
    (hsofar : NormalizedSoFar last normalized) (hread : endsInPunctuation (some read) = false)
    (hc : nameChar c = .plain) : NormalizedSoFar (some read) (normalized ++ [c]) where
  continues rest := by
    rw [List.append_assoc, hsofar.continues, List.singleton_append, List.getLast?_append,
      List.getLast?_singleton, Option.some_or, isNormalizedLoop.eq_def]
    simp only [hc]
  dash hpunctuation := by rw [hread] at hpunctuation; cases hpunctuation
  plain _ d hd := by
    rw [List.getLast?_append, List.getLast?_singleton, Option.some_or] at hd
    rw [← Option.some.inj hd, hc]
  start := by simp

theorem NormalizedSoFar.pushDash {last : Char} {normalized : List Char} {read : Char}
    (hsofar : NormalizedSoFar (some last) normalized)
    (hlast : endsInPunctuation (some last) = false)
    (hread : endsInPunctuation (some read) = true) :
    NormalizedSoFar (some read) (normalized ++ ['-']) where
  continues rest := by
    have hne : normalized ≠ [] := fun hnil => by simpa using hsofar.start.mpr hnil
    obtain ⟨c, hc⟩ : ∃ c, normalized.getLast? = some c :=
      ⟨normalized.getLast hne, List.getLast?_eq_some_getLast hne⟩
    have hplain := hsofar.plain hlast c hc
    rw [List.append_assoc, hsofar.continues, List.singleton_append, hc, List.getLast?_append,
      List.getLast?_singleton, Option.some_or, isNormalizedLoop.eq_def]
    simp only [show nameChar '-' = .dash by decide, if_neg (ne_dash hplain)]
  dash _ := by rw [List.getLast?_append, List.getLast?_singleton, Option.some_or]
  plain hread' := by rw [hread] at hread'; cases hread'
  start := by simp

theorem isNormalized_of_normalizeLoop {rest : List Char} {last : Option Char}
    {normalized text : List Char} (hsofar : NormalizedSoFar last normalized)
    (htext : normalizeLoop rest last normalized = some text) : isNormalized text = some true := by
  induction rest generalizing last normalized with
  | nil =>
      rw [normalizeLoop] at htext
      split at htext
      · cases htext
      rename_i hlast
      have hlast := Bool.eq_false_iff.mpr hlast
      obtain rfl := Option.some.inj htext
      have hcontinues := hsofar.continues []
      rw [List.append_nil] at hcontinues
      rw [isNormalized, hcontinues, isNormalizedLoop]
      cases hget : normalized.getLast? with
      | none => rfl
      | some c => rw [not_endsInPunctuation (hsofar.plain hlast c hget), if_neg Bool.false_ne_true]
  | cons c rest ih =>
      cases hc : nameChar c with
      | upper =>
          simp only [normalizeLoop, hc] at htext
          exact ih (hsofar.push (by simp [endsInPunctuation, hc]) (nameChar_toLower hc)) htext
      | plain =>
          simp only [normalizeLoop, hc] at htext
          exact ih (hsofar.push (not_endsInPunctuation hc) hc) htext
      | other => simp only [normalizeLoop, hc] at htext; cases htext
      | dash | punctuation =>
          have hread : endsInPunctuation (some c) = true := by simp [endsInPunctuation, hc]
          simp only [normalizeLoop, hc] at htext
          cases last with
          | none => cases htext
          | some l =>
              simp only at htext
              split at htext
              · rename_i hlast
                refine ih ⟨hsofar.continues, fun _ => hsofar.dash hlast, ?_, ?_⟩ htext
                · intro hnot
                  rw [hread] at hnot
                  cases hnot
                · simpa using hsofar.start
              · rename_i hlast
                exact ih (hsofar.pushDash (Bool.eq_false_iff.mpr hlast) hread) htext

theorem normalizedSoFar_nil : NormalizedSoFar none [] :=
  ⟨fun _ => rfl, fun h => absurd h (by decide), fun _ _ h => absurd h (by simp), by simp⟩

/-- What `validate_and_normalize_ref` returns is a name. -/
theorem isNormalized_of_validateAndNormalize {name text : List Char}
    (htext : validateAndNormalize name = some text) : isNormalized text = some true := by
  unfold validateAndNormalize at htext
  split at htext
  · cases htext
  · rename_i hname
    rw [← Option.some.inj htext, hname]
  · exact isNormalized_of_normalizeLoop normalizedSoFar_nil htext

/-! ## Letters and digits -/

/-- A letter or a digit, which every name ends with. -/
def isWord (c : Char) : Bool := nameChar c = .upper || nameChar c = .plain

theorem isWord_eq_false {c : Char} (hc : nameChar c = .dash ∨ nameChar c = .punctuation) :
    isWord c = false := by
  rcases hc with hc | hc <;> simp [isWord, hc]

theorem getLast?_cons_or (c : Char) (rest : List Char) (last : Option Char) :
    (c :: rest).getLast?.or last = rest.getLast?.or (some c) := by
  cases rest with
  | nil => rfl
  | cons d rest =>
      rw [List.getLast?_cons_cons, List.getLast?_eq_some_getLast (List.cons_ne_nil d rest)]
      rfl

theorem normalizeLoop_words {rest : List Char} {last : Option Char} {normalized text : List Char}
    (htext : normalizeLoop rest last normalized = some text) :
    normalized.countP isWord + rest.countP isWord = text.countP isWord ∧
      endsInPunctuation (rest.getLast?.or last) = false := by
  induction rest generalizing last normalized with
  | nil =>
      rw [normalizeLoop] at htext
      split at htext
      · cases htext
      · rename_i hlast
        obtain rfl := Option.some.inj htext
        exact ⟨rfl, Bool.eq_false_iff.mpr hlast⟩
  | cons c rest ih =>
      rw [getLast?_cons_or, List.countP_cons]
      cases hc : nameChar c with
      | upper =>
          simp only [normalizeLoop, hc] at htext
          obtain ⟨hcount, hlast⟩ := ih htext
          have hlower : isWord c.toLower = true := by simp [isWord, nameChar_toLower hc]
          have hword : isWord c = true := by simp [isWord, hc]
          refine ⟨?_, hlast⟩
          rw [← hcount, List.countP_append, List.countP_singleton, hlower, hword]
          simp only [if_true]
          omega
      | plain =>
          simp only [normalizeLoop, hc] at htext
          obtain ⟨hcount, hlast⟩ := ih htext
          have hword : isWord c = true := by simp [isWord, hc]
          refine ⟨?_, hlast⟩
          rw [← hcount, List.countP_append, List.countP_singleton, hword]
          simp only [if_true]
          omega
      | other => simp only [normalizeLoop, hc] at htext; cases htext
      | dash | punctuation =>
          have hword : isWord c = false := isWord_eq_false (by simp [hc])
          have hdash : isWord '-' = false := by decide
          simp only [normalizeLoop, hc] at htext
          cases last with
          | none => cases htext
          | some l =>
              simp only at htext
              split at htext
              · obtain ⟨hcount, hlast⟩ := ih htext
                refine ⟨?_, hlast⟩
                rw [← hcount, hword]
                rfl
              · obtain ⟨hcount, hlast⟩ := ih htext
                refine ⟨?_, hlast⟩
                rw [← hcount, List.countP_append, List.countP_singleton, hdash, hword]
                simp

theorem isNormalizedLoop_last {rest : List Char} {last : Option Char}
    (htrue : isNormalizedLoop rest last = some true) :
    endsInPunctuation (rest.getLast?.or last) = false := by
  induction rest generalizing last with
  | nil =>
      rw [isNormalizedLoop] at htrue
      split at htrue
      · cases htrue
      · rename_i hlast
        exact Bool.eq_false_iff.mpr hlast
  | cons c rest ih =>
      rw [getLast?_cons_or]
      rw [isNormalizedLoop.eq_def] at htrue
      cases hc : nameChar c with
      | plain => simp only [hc] at htrue; exact ih htrue
      | dash =>
          simp only [hc] at htrue
          split at htrue
          · cases htrue
          · split at htrue
            · cases htrue
            · exact ih htrue
      | _ => simp only [hc] at htrue; cases htrue

/-- A text that is read as a name has its letters and digits, and does not end in punctuation. -/
theorem validateAndNormalize_words {name text : List Char}
    (htext : validateAndNormalize name = some text) :
    name.countP isWord = text.countP isWord ∧ endsInPunctuation name.getLast? = false := by
  unfold validateAndNormalize at htext
  split at htext
  · cases htext
  · rename_i hname
    obtain rfl := Option.some.inj htext
    have hlast := isNormalizedLoop_last hname
    rw [Option.or_none] at hlast
    exact ⟨rfl, hlast⟩
  · obtain ⟨hcount, hlast⟩ := normalizeLoop_words htext
    rw [Option.or_none] at hlast
    rw [List.countP_nil, Nat.zero_add] at hcount
    exact ⟨hcount, hlast⟩

/-- Every character of a name is a letter, a digit or punctuation. -/
theorem normalizeLoop_chars {rest : List Char} {last : Option Char} {normalized text : List Char}
    (htext : normalizeLoop rest last normalized = some text) :
    ∀ c ∈ rest, isWord c = true ∨ endsInPunctuation (some c) = true := by
  induction rest generalizing last normalized with
  | nil => simp
  | cons c rest ih =>
      intro d hd
      rw [List.mem_cons] at hd
      cases hc : nameChar c with
      | upper =>
          simp only [normalizeLoop, hc] at htext
          rcases hd with rfl | hd
          · exact .inl (by simp [isWord, hc])
          · exact ih htext d hd
      | plain =>
          simp only [normalizeLoop, hc] at htext
          rcases hd with rfl | hd
          · exact .inl (by simp [isWord, hc])
          · exact ih htext d hd
      | other => simp only [normalizeLoop, hc] at htext; cases htext
      | dash | punctuation =>
          simp only [normalizeLoop, hc] at htext
          rcases hd with rfl | hd
          · exact .inr (by simp [endsInPunctuation, hc])
          cases last with
          | none => cases htext
          | some l =>
              simp only at htext
              split at htext
              · exact ih htext d hd
              · exact ih htext d hd

theorem isNormalizedLoop_chars {rest : List Char} {last : Option Char}
    (htrue : isNormalizedLoop rest last = some true) :
    ∀ c ∈ rest, isWord c = true ∨ endsInPunctuation (some c) = true := by
  induction rest generalizing last with
  | nil => simp
  | cons c rest ih =>
      intro d hd
      rw [List.mem_cons] at hd
      rw [isNormalizedLoop.eq_def] at htrue
      cases hc : nameChar c with
      | plain =>
          simp only [hc] at htrue
          rcases hd with rfl | hd
          · exact .inl (by simp [isWord, hc])
          · exact ih htrue d hd
      | dash =>
          simp only [hc] at htrue
          rcases hd with rfl | hd
          · exact .inr (by simp [endsInPunctuation, hc])
          split at htrue
          · cases htrue
          · split at htrue
            · cases htrue
            · exact ih htrue d hd
      | _ => simp only [hc] at htrue; cases htrue

theorem validateAndNormalize_chars {name text : List Char}
    (htext : validateAndNormalize name = some text) :
    ∀ c ∈ name, isWord c = true ∨ endsInPunctuation (some c) = true := by
  unfold validateAndNormalize at htext
  split at htext
  · cases htext
  · rename_i hname
    exact isNormalizedLoop_chars hname
  · exact normalizeLoop_chars htext

/-- Of the texts a text starts with, at most one is read as a given name. -/
theorem validateAndNormalize_append {name after text : List Char}
    (hshort : validateAndNormalize name = some text)
    (hlong : validateAndNormalize (name ++ after) = some text) : after = [] := by
  obtain ⟨hshortCount, -⟩ := validateAndNormalize_words hshort
  obtain ⟨hlongCount, hlast⟩ := validateAndNormalize_words hlong
  rw [List.countP_append, ← hshortCount] at hlongCount
  by_contra hne
  have hget : (name ++ after).getLast? = some (after.getLast hne) := by
    rw [List.getLast?_append, List.getLast?_eq_some_getLast hne, Option.some_or]
  rw [hget] at hlast
  rcases validateAndNormalize_chars hlong (after.getLast hne)
    (List.mem_append_right _ (List.getLast_mem hne)) with hword | hpunctuation
  · have hpos : 0 < after.countP isWord :=
      List.countP_pos_iff.mpr ⟨_, List.getLast_mem hne, hword⟩
    omega
  · rw [hlast] at hpunctuation
    cases hpunctuation

/-- `PackageName::from_str`, and likewise for the other names. -/
def Name.fromStr (name : List Char) : Option Name :=
  match h : validateAndNormalize name with
  | none => none
  | some text => some ⟨text, isNormalized_of_validateAndNormalize h⟩

theorem Name.fromStr_eq_some_iff {name : List Char} {packageName : Name} :
    Name.fromStr name = some packageName ↔ validateAndNormalize name = some packageName.text := by
  unfold Name.fromStr
  split
  · rename_i hnone
    simp [hnone]
  · rename_i text hsome
    rw [Option.some.injEq]
    constructor
    · rintro rfl
      exact hsome
    · intro heq
      obtain rfl := Option.some.inj (hsome.symm.trans heq)
      rfl

/-! ## Underscores -/

/-- A character of a name in the name of a distribution. -/
def escapeDash (c : Char) : Char := if c = '-' then '_' else c

/-- Escape this name with underscores instead of dashes. -/
def Name.asDistInfoName (name : Name) : List Char := name.text.map escapeDash

theorem dash_notMem_asDistInfoName (name : Name) : '-' ∉ name.asDistInfoName := by
  intro hmem
  obtain ⟨c, -, heq⟩ := List.mem_map.mp hmem
  unfold escapeDash at heq
  split at heq
  · exact absurd heq (by decide)
  · rename_i hne
    exact hne heq

theorem escapeDash_plain {c : Char} (hplain : nameChar c = .plain) : escapeDash c = c :=
  if_neg (ne_dash hplain)

theorem eq_dash {c : Char} (hc : nameChar c = .dash) : c = '-' := by
  unfold nameChar at hc
  repeat' split at hc
  all_goals first
    | assumption
    | cases hc

/-- An escaped name is a name, and is normalized only where nothing was escaped. -/
theorem isNormalizedLoop_escape {rest : List Char} {last : Option Char}
    (htrue : isNormalizedLoop rest last = some true) :
    (isNormalizedLoop (rest.map escapeDash) last = some true ∧ rest.map escapeDash = rest) ∨
      isNormalizedLoop (rest.map escapeDash) last = some false := by
  induction rest generalizing last with
  | nil => exact .inl ⟨htrue, rfl⟩
  | cons c rest ih =>
      rw [isNormalizedLoop.eq_def] at htrue
      cases hc : nameChar c with
      | plain =>
          simp only [hc] at htrue
          rw [List.map_cons, escapeDash_plain hc, isNormalizedLoop.eq_def]
          simp only [hc]
          rcases ih htrue with ⟨hsame, heq⟩ | hfalse
          · exact .inl ⟨hsame, by rw [heq]⟩
          · exact .inr hfalse
      | dash =>
          right
          rw [eq_dash hc, List.map_cons, isNormalizedLoop.eq_def]
          rfl
      | _ => simp only [hc] at htrue; cases htrue

/-- The last character of a normalized text. -/
def LastOf (last read : Option Char) : Prop :=
  read = last.map escapeDash ∧ ∀ c, last = some c → nameChar c = .plain ∨ c = '-'

theorem endsInPunctuation_escape {last read : Option Char} (hlast : LastOf last read) :
    endsInPunctuation read = endsInPunctuation last := by
  rw [hlast.1]
  cases last with
  | none => rfl
  | some c =>
      rcases hlast.2 c rfl with hplain | rfl
      · rw [Option.map_some, escapeDash_plain hplain]
      · rfl

/-- The underscores are read as dashes. -/
theorem normalizeLoop_escape {rest : List Char} {last read : Option Char}
    {normalized : List Char} (hlast : LastOf last read)
    (htrue : isNormalizedLoop rest last = some true) :
    normalizeLoop (rest.map escapeDash) read normalized = some (normalized ++ rest) := by
  induction rest generalizing last read normalized with
  | nil =>
      rw [isNormalizedLoop] at htrue
      split at htrue
      · cases htrue
      · rename_i hend
        rw [List.map_nil, normalizeLoop, endsInPunctuation_escape hlast, if_neg hend,
          List.append_nil]
  | cons c rest ih =>
      rw [isNormalizedLoop.eq_def] at htrue
      cases hc : nameChar c with
      | plain =>
          simp only [hc] at htrue
          have hnext : LastOf (some c) (some c) := by
            refine ⟨by rw [Option.map_some, escapeDash_plain hc], ?_⟩
            intro d hd
            exact .inl (Option.some.inj hd ▸ hc)
          rw [List.map_cons, escapeDash_plain hc, normalizeLoop.eq_def]
          simp only [hc]
          rw [ih hnext htrue, List.append_assoc, List.singleton_append]
      | dash =>
          simp only [hc] at htrue
          split at htrue
          · cases htrue
          rename_i l
          split at htrue
          · cases htrue
          rename_i hne
          have hplain : nameChar l = .plain := (hlast.2 l rfl).resolve_right hne
          have hend : endsInPunctuation read = false :=
            (endsInPunctuation_escape hlast).trans (not_endsInPunctuation hplain)
          have hread : read = some l := by
            rw [hlast.1, Option.map_some, escapeDash_plain hplain]
          obtain rfl := eq_dash hc
          have hnext : LastOf (some '-') (some '_') := by
            refine ⟨rfl, ?_⟩
            intro d hd
            exact .inr (Option.some.inj hd).symm
          rw [hread] at hend
          have hunderscore : nameChar '_' = .punctuation := by decide
          rw [List.map_cons, show escapeDash '-' = '_' from rfl, normalizeLoop.eq_def, hread]
          simp only [hunderscore, hend, Bool.false_eq_true, if_false]
          rw [ih hnext htrue, List.append_assoc, List.singleton_append]
      | _ => simp only [hc] at htrue; cases htrue

/-- A name in the name of a distribution is read as the name. -/
theorem Name.fromStr_asDistInfoName (name : Name) :
    Name.fromStr name.asDistInfoName = some name := by
  rw [Name.fromStr_eq_some_iff, Name.asDistInfoName]
  unfold validateAndNormalize
  rcases isNormalizedLoop_escape name.normalized with ⟨htrue, heq⟩ | hfalse
  · rw [isNormalized, htrue, heq]
  · rw [isNormalized, hfalse]
    have hlast : LastOf none none := ⟨rfl, fun c hc => by cases hc⟩
    exact normalizeLoop_escape hlast name.normalized

end Uv
