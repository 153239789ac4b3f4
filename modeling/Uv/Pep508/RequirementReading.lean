import Uv.Pep508.Requirement

/-!
# Reading requirements

What the parser of requirements does to a text is described without positions and slices.
The description panics at an extra that is no name, and nowhere else.
-/

set_option linter.unusedSectionVars false

namespace Uv.Pep508

open Uv.Core Uv.Pep440
open Uv.Pep440.VersionSpecifier (isWhitespace)

/-! ## The description -/

/-- How reading a part of a text ends; a value comes with the text after it. -/
inductive Reading (α : Type) where
  | panic
  | error
  | ok (value : α) (rest : Text)

namespace Reading

variable {α β : Type}

def bind (reading : Reading α) (next : α → Text → Reading β) : Reading β :=
  match reading with
  | panic => panic
  | error => error
  | ok value rest => next value rest

theorem bind_eq_panic {reading : Reading α} {next : α → Text → Reading β} :
    reading.bind next = .panic ↔
      reading = .panic ∨ ∃ value rest, reading = .ok value rest ∧ next value rest = .panic := by
  cases reading with
  | panic => simp [bind]
  | error => simp [bind]
  | ok value rest =>
      simp only [bind, reduceCtorEq, false_or, ok.injEq]
      constructor
      · intro hnext
        exact ⟨value, rest, ⟨rfl, rfl⟩, hnext⟩
      · rintro ⟨_, _, ⟨rfl, rfl⟩, hnext⟩
        exact hnext

end Reading

def trim (text : Text) : Text := text.dropWhile isWhitespace

/-- A name as it is written. -/
def readName : Text → Reading Text
  | [] => .error
  | c :: rest =>
      let name := c :: rest.takeWhile isNameChar
      if isAlphanumeric c && name.getLast?.any isAlphanumeric then
        .ok name (rest.dropWhile isNameChar)
      else .error

/-- An extra and the whitespace after it; the name must not end in punctuation. -/
def readExtra (text : Text) : Reading Unit :=
  match trim text with
  | [] => .error
  | c :: rest =>
      let after := rest.dropWhile isNameChar
      if isAlphanumeric c &&
          after.head?.all fun c => c = ',' || c = ']' || isWhitespace c then
        if (c :: rest.takeWhile isNameChar).getLast?.any isAlphanumeric then .ok () (trim after)
        else .panic
      else .error

/-- Extras up to the closing bracket; there are fewer than characters. -/
def readExtrasLoop : ℕ → Bool → Text → Reading Unit
  | 0, _, _ => .error
  | fuel + 1, isFirst, text =>
      match text with
      | [] => (readExtra []).bind fun _ rest => readExtrasLoop fuel false rest
      | c :: rest =>
          if c = ']' then .ok () rest
          else if c = ',' ∧ isFirst then .error
          else if c ≠ ',' ∧ !isFirst then .error
          else
            (readExtra (if c = ',' then rest else c :: rest)).bind fun _ rest =>
              readExtrasLoop fuel false rest

def readExtras (text : Text) : Reading Unit :=
  match text with
  | '[' :: rest => readExtrasLoop ((trim rest).length + 1) true (trim rest)
  | _ => .ok () text

/-- A URL, up to a line break or a marker or comment, and the text after it. -/
def splitUrl : Text → Text × Text
  | [] => ([], [])
  | c :: rest =>
      if c = '\r' ∨ c = '\n' then ([], rest)
      else if isWhitespace c ∧
          (rest.dropWhile isWhitespace).head?.all fun c => c = ';' || c = '#' then
        ([], rest)
      else if (rest.head?.any fun c => c = ';' || c = '#') ∧
          (rest.tail.head?.any isWhitespace) then
        ([c], rest)
      else (c :: (splitUrl rest).1, (splitUrl rest).2)

variable {Url UrlError : Type}

def readUrl (parseUrl : Text → Except UrlError Url) (text : Text) : Reading Unit :=
  let (url, rest) := splitUrl (trim text)
  if url.isEmpty then .error
  else if (parseUrl url).isOk then .ok () rest
  else .error

def isSpecifier (buffer : Text) : Bool := (VersionSpecifier.fromStr buffer).isOk

/-- Specifiers separated by commas, up to a semicolon. -/
def readSpecifiers : Text → Text → Reading Unit
  | [], buffer => if isSpecifier buffer then .ok () [] else .error
  | c :: rest, buffer =>
      if c = ';' then if isSpecifier buffer then .ok () (c :: rest) else .error
      else if c = ',' then if isSpecifier buffer then readSpecifiers rest [] else .error
      else readSpecifiers rest (buffer ++ [c])

/-- Specifiers separated by commas, up to a closing parenthesis. -/
def readParentheses : Text → Text → Reading Unit
  | [], _ => .error
  | c :: rest, buffer =>
      if c = ',' then if isSpecifier buffer then readParentheses rest [] else .error
      else if c = ')' then if isSpecifier buffer then .ok () rest else .error
      else readParentheses rest (buffer ++ [c])

/-- Whether there is a URL or a specifier. -/
def readVersionOrUrl (parseUrl : Text → Except UrlError Url) (text : Text) : Reading Bool :=
  match text with
  | [] => .ok false []
  | c :: rest =>
      if c = '@' then (readUrl parseUrl rest).bind fun _ => .ok true
      else if c = '(' then (readParentheses (trim rest) []).bind fun _ => .ok true
      else if "<=>~!".toList.contains c then
        (readSpecifiers (c :: rest) []).bind fun _ => .ok true
      else if c = ';' then .ok false (c :: rest)
      else .error

/-- Everything before the marker. -/
def readHead (parseUrl : Text → Except UrlError Url) (text : Text) : Reading Unit :=
  (readName (trim text)).bind fun name rest =>
    (readExtras (trim rest)).bind fun _ rest =>
      (readVersionOrUrl parseUrl (trim rest)).bind fun kind rest =>
        if !kind && looksLikeArchive name then .error else .ok () rest

/-- The text after the semicolon, if there is one next. -/
def markerAfter (rest : Text) : Option Text :=
  match trim rest with
  | ';' :: marker => some marker
  | _ => none

/-- The text of the marker, if the parser comes to one. -/
def markerText (parseUrl : Text → Except UrlError Url) (text : Text) : Option Text :=
  match readHead parseUrl text with
  | .ok _ rest => markerAfter rest
  | _ => none

theorem readName_ok {text name rest : Text} (hread : readName text = .ok name rest) :
    text = name ++ rest := by
  cases text with
  | nil => cases hread
  | cons c text =>
      rw [readName] at hread
      split at hread
      · cases hread
        rw [List.cons_append, List.takeWhile_append_dropWhile]
      · cases hread

theorem readExtra_ok {text rest : Text} (hread : readExtra text = .ok () rest) :
    rest.length < text.length := by
  rw [readExtra] at hread
  have htrim : (trim text).length ≤ text.length := (List.dropWhile_suffix _).length_le
  cases hchars : trim text with
  | nil =>
      rw [hchars] at hread
      cases hread
  | cons c chars =>
      simp only [hchars] at hread
      split_ifs at hread with hc hlast
      · cases hread
        have hafter : (chars.dropWhile isNameChar).length ≤ chars.length :=
          (List.dropWhile_suffix _).length_le
        have hrest : (trim (chars.dropWhile isNameChar)).length ≤
            (chars.dropWhile isNameChar).length := (List.dropWhile_suffix _).length_le
        rw [hchars, List.length_cons] at htrim
        omega

/-! ## Extras that are no names -/

/-- A word that is read as an extra and ends in punctuation. -/
def BadExtra (text : Text) : Prop :=
  ∃ c word after, trim text = c :: (word ++ after) ∧ isAlphanumeric c = true ∧
    (∀ other ∈ word, isNameChar other = true) ∧
    (c :: word).getLast?.any isAlphanumeric = false ∧
    after.head?.all (fun c => c = ',' || c = ']' || isWhitespace c) = true

/-- An extra follows, after a comma unless it is the first one. -/
def Separated (isFirst : Bool) (text extra : Text) : Prop :=
  if isFirst then extra = text else text = ',' :: extra

/-- The extras from here on come to one that is no name; those before it are. -/
inductive ComesToBadExtra : Bool → Text → Prop
  | here {isFirst : Bool} {text extra : Text} (hseparated : Separated isFirst text extra)
      (hbad : BadExtra extra) : ComesToBadExtra isFirst text
  | later {isFirst : Bool} {text extra rest : Text} (hseparated : Separated isFirst text extra)
      (hread : readExtra extra = .ok () rest) (hrest : ComesToBadExtra false rest) :
      ComesToBadExtra isFirst text

/-- One of the extras after the name is no name. -/
def HasBadExtra (text : Text) : Prop :=
  ∃ name rest extras, readName (trim text) = .ok name rest ∧ trim rest = '[' :: extras ∧
    ComesToBadExtra true (trim extras)

/-- The character after an extra is not one of a name. -/
theorem isNameChar_false {c : Char} (hc : (c = ',' || c = ']' || isWhitespace c) = true) :
    isNameChar c = false := by
  simp only [Bool.or_eq_true, decide_eq_true_eq] at hc
  rcases hc with (rfl | rfl) | hspace
  · decide
  · decide
  · rw [← Bool.not_eq_true]
    intro hname
    have hdot : c ≠ '.' := by rintro rfl; exact absurd hspace (by decide)
    have hdash : c ≠ '-' := by rintro rfl; exact absurd hspace (by decide)
    have hunderscore : c ≠ '_' := by rintro rfl; exact absurd hspace (by decide)
    have hbounds : (65 ≤ c.toNat ∧ c.toNat ≤ 90 ∨ 97 ≤ c.toNat ∧ c.toNat ≤ 122) ∨
        48 ≤ c.toNat ∧ c.toNat ≤ 57 := by
      simpa [isNameChar, isAlphanumeric, hdot, hdash, hunderscore, Char.le_def,
        UInt32.le_iff_toNat_le] using hname
    simp only [isWhitespace, Bool.or_eq_true, Bool.and_eq_true, decide_eq_true_eq,
      beq_iff_eq] at hspace
    omega

theorem readExtra_error {c : Char} {rest : Text} (hspace : isWhitespace c = false)
    (hc : isAlphanumeric c = false) : readExtra (c :: rest) = .error := by
  have htrim : trim (c :: rest) = c :: rest := by
    rw [trim, List.dropWhile_cons_of_neg (by simp [hspace])]
  simp only [readExtra, htrim, hc, Bool.false_and, Bool.false_eq_true, if_false]

theorem readExtra_eq_panic {text : Text} : readExtra text = .panic ↔ BadExtra text := by
  constructor
  · intro hpanic
    rw [readExtra] at hpanic
    cases hchars : trim text with
    | nil =>
        rw [hchars] at hpanic
        cases hpanic
    | cons c rest =>
        simp only [hchars] at hpanic
        split_ifs at hpanic with hc hlast
        obtain ⟨hc, hafter⟩ := Bool.and_eq_true_iff.mp hc
        exact ⟨c, rest.takeWhile isNameChar, rest.dropWhile isNameChar,
          by rw [hchars, List.takeWhile_append_dropWhile], hc,
          fun other hother => List.mem_takeWhile_imp hother, eq_false_of_ne_true hlast, hafter⟩
  · rintro ⟨c, word, after, hchars, hc, hword, hlast, hafter⟩
    have hstop : after.takeWhile isNameChar = [] ∧ after.dropWhile isNameChar = after := by
      cases after with
      | nil => exact ⟨rfl, rfl⟩
      | cons other after =>
          have hother : isNameChar other = false := isNameChar_false hafter
          rw [List.takeWhile_cons_of_neg (by simp [hother]),
            List.dropWhile_cons_of_neg (by simp [hother])]
          exact ⟨rfl, rfl⟩
    have htake : (word ++ after).takeWhile isNameChar = word := by
      rw [List.takeWhile_append_of_pos hword, hstop.1, List.append_nil]
    have hdrop : (word ++ after).dropWhile isNameChar = after := by
      rw [List.dropWhile_append_of_pos hword, hstop.2]
    simp only [readExtra, hchars, htake, hdrop, hc, hafter, hlast, Bool.and_self,
      Bool.false_eq_true, if_true, if_false]

theorem comesToBadExtra_iff {isFirst : Bool} {text : Text} :
    ComesToBadExtra isFirst text ↔ ∃ extra, Separated isFirst text extra ∧
      (readExtra extra = .panic ∨
        ∃ rest, readExtra extra = .ok () rest ∧ ComesToBadExtra false rest) := by
  constructor
  · intro hcomes
    cases hcomes with
    | here hseparated hbad => exact ⟨_, hseparated, Or.inl (readExtra_eq_panic.mpr hbad)⟩
    | later hseparated hread hrest => exact ⟨_, hseparated, Or.inr ⟨_, hread, hrest⟩⟩
  · rintro ⟨extra, hseparated, hpanic | ⟨rest, hread, hrest⟩⟩
    · exact .here hseparated (readExtra_eq_panic.mp hpanic)
    · exact .later hseparated hread hrest

/-- The loop goes on with an extra, or does not panic. -/
theorem readExtrasLoop_succ {fuel : ℕ} {isFirst : Bool} {text : Text} :
    readExtrasLoop (fuel + 1) isFirst text = .panic ↔ ∃ extra, Separated isFirst text extra ∧
      (readExtra extra).bind (fun _ rest => readExtrasLoop fuel false rest) = .panic := by
  cases text with
  | nil =>
      cases isFirst with
      | true => simp [readExtrasLoop, Separated]
      | false => simp [readExtrasLoop, Separated, readExtra, trim, Reading.bind]
  | cons c rest =>
      rw [readExtrasLoop]
      cases isFirst with
      | false =>
          by_cases hcomma : c = ','
          · subst hcomma
            simp [Separated]
          · by_cases hclose : c = ']'
            · simp [Separated, hclose]
            · simp [Separated, hclose, hcomma]
      | true =>
          by_cases hclose : c = ']'
          · subst hclose
            simp [Separated, readExtra_error (c := ']') (by decide) (by decide), Reading.bind]
          · by_cases hcomma : c = ','
            · subst hcomma
              simp [Separated, readExtra_error (c := ',') (by decide) (by decide), Reading.bind]
            · simp [Separated, hclose, hcomma]

theorem readExtrasLoop_eq_panic {fuel : ℕ} {isFirst : Bool} {text : Text}
    (hfuel : text.length < fuel) :
    readExtrasLoop fuel isFirst text = .panic ↔ ComesToBadExtra isFirst text := by
  induction fuel generalizing isFirst text with
  | zero => exact absurd hfuel (Nat.not_lt_zero _)
  | succ fuel ih =>
      rw [readExtrasLoop_succ, comesToBadExtra_iff]
      apply exists_congr
      intro extra
      apply and_congr_right
      intro hseparated
      rw [Reading.bind_eq_panic]
      have hextra : extra.length ≤ text.length := by
        cases isFirst with
        | true =>
            have heq : extra = text := by simpa [Separated] using hseparated
            rw [heq]
        | false =>
            have heq : text = ',' :: extra := by simpa [Separated] using hseparated
            rw [heq]
            exact Nat.le_succ _
      apply or_congr_right
      constructor
      · rintro ⟨value, rest, hread, hpanic⟩
        have hshorter := readExtra_ok hread
        exact ⟨rest, hread, (ih (by omega)).mp hpanic⟩
      · rintro ⟨rest, hread, hcomes⟩
        have hshorter := readExtra_ok hread
        exact ⟨(), rest, hread, (ih (by omega)).mpr hcomes⟩

theorem readName_ne_panic {text : Text} : readName text ≠ .panic := by
  cases text with
  | nil => simp [readName]
  | cons c rest =>
      rw [readName]
      split <;> simp

theorem readSpecifiers_ne_panic {text buffer : Text} : readSpecifiers text buffer ≠ .panic := by
  induction text generalizing buffer with
  | nil =>
      rw [readSpecifiers]
      split <;> simp
  | cons c rest ih =>
      rw [readSpecifiers]
      split_ifs <;> first | exact ih | simp

theorem readParentheses_ne_panic {text buffer : Text} :
    readParentheses text buffer ≠ .panic := by
  induction text generalizing buffer with
  | nil => simp [readParentheses]
  | cons c rest ih =>
      rw [readParentheses]
      split_ifs <;> first | exact ih | simp

theorem readVersionOrUrl_ne_panic {parseUrl : Text → Except UrlError Url} {text : Text} :
    readVersionOrUrl parseUrl text ≠ .panic := by
  cases text with
  | nil => simp [readVersionOrUrl]
  | cons c rest =>
      rw [readVersionOrUrl]
      split_ifs
      · rw [readUrl]
        dsimp only
        split_ifs <;> simp [Reading.bind]
      · simp [Reading.bind_eq_panic, readParentheses_ne_panic]
      · simp [Reading.bind_eq_panic, readSpecifiers_ne_panic]
      · simp
      · simp

theorem readExtras_eq_panic {text : Text} :
    readExtras text = .panic ↔
      ∃ extras, text = '[' :: extras ∧ ComesToBadExtra true (trim extras) := by
  unfold readExtras
  split
  · rename_i rest
    rw [readExtrasLoop_eq_panic (Nat.lt_succ_self _)]
    simp
  · rename_i hopen
    simp only [reduceCtorEq, false_iff, not_exists, not_and]
    intro extras htext
    exact absurd htext (hopen extras)

theorem readHead_eq_panic {parseUrl : Text → Except UrlError Url} {text : Text} :
    readHead parseUrl text = .panic ↔ HasBadExtra text := by
  rw [readHead, Reading.bind_eq_panic, HasBadExtra]
  simp only [readName_ne_panic, false_or]
  apply exists_congr
  intro name
  apply exists_congr
  intro rest
  rw [Reading.bind_eq_panic, readExtras_eq_panic]
  constructor
  · rintro ⟨hname, hpanic | ⟨_, after, _, hpanic⟩⟩
    · obtain ⟨extras, hextras, hcomes⟩ := hpanic
      exact ⟨extras, hname, hextras, hcomes⟩
    · rw [Reading.bind_eq_panic] at hpanic
      obtain hpanic | ⟨kind, rest', _, hpanic⟩ := hpanic
      · exact absurd hpanic readVersionOrUrl_ne_panic
      · split at hpanic <;> cases hpanic
  · rintro ⟨extras, hname, hextras, hcomes⟩
    exact ⟨hname, Or.inl ⟨extras, hextras, hcomes⟩⟩

end Uv.Pep508
