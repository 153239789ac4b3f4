import Uv.NameGrammar

/-!
# Names of `.dist-info` directories

Such a name is normalized without restrictions on its characters: lower case, and
one dash for every run of dashes, underscores and dots.  A name that needs nothing
is kept as it is; any other name is rebuilt from its bytes, each taken as a
character of its own.
-/

namespace Uv

/-- The normalized name of a `.dist-info` directory. -/
structure DistInfoName where
  text : List Char
  deriving DecidableEq

namespace DistInfoName

/-- `str::bytes`. -/
def bytes (name : List Char) : List UInt8 := name.flatMap String.utf8EncodeChar

def isAsciiUppercase (char : UInt8) : Bool := 65 ≤ char && char ≤ 90

/-- Whether the byte is a dash, an underscore or a dot. -/
def isPunctuation (char : UInt8) : Bool := char == 45 || char == 95 || char == 46

/-- `char as char`: the character whose code is the byte. -/
def asChar (char : UInt8) : Char := Char.ofNat char.toNat

/-- The loop of `normalize`: what is left, the last byte and the text so far.  A
byte of a run that is dropped is not the last one. -/
def normalizeLoop : List UInt8 → Option UInt8 → List Char → List Char
  | [], _, normalized => normalized
  | char :: rest, last, normalized =>
      if isAsciiUppercase char then
        normalizeLoop rest (some char) (normalized ++ [asChar (char + 32)])
      else if isPunctuation char then
        if last.any isPunctuation then normalizeLoop rest last normalized
        else normalizeLoop rest (some char) (normalized ++ ['-'])
      else normalizeLoop rest (some char) (normalized ++ [asChar char])

def normalize (name : List Char) : List Char := normalizeLoop (bytes name) none []

/-- The loop of `is_normalized`. -/
def isNormalizedLoop : List UInt8 → Option UInt8 → Bool
  | [], _ => true
  | char :: rest, last =>
      if isAsciiUppercase char then false
      else if char == 95 || char == 46 then false
      else if char == 45 && last == some 45 then false
      else isNormalizedLoop rest (some char)

def isNormalized (name : List Char) : Bool := isNormalizedLoop (bytes name) none

def new (name : List Char) : DistInfoName :=
  if isNormalized name then ⟨name⟩ else ⟨normalize name⟩

/-! ## Bytes as characters -/

/-- A text as the rewriting path reads it: every byte of it is a character. -/
def latin (name : List Char) : List Char := (bytes name).map asChar

/-- One byte encodes an ASCII character. -/
def IsAscii (c : Char) : Prop := c.utf8Size = 1

instance (c : Char) : Decidable (IsAscii c) := inferInstanceAs (Decidable (_ = _))

theorem isNameSeparator_asChar (char : UInt8) :
    isNameSeparator (asChar char) = isPunctuation char := by
  have hall : ∀ n : Fin 256, isNameSeparator (asChar (.ofFin n)) =
      isPunctuation (.ofFin n) := by
    decide +kernel
  exact hall char.toFin

theorem toLower_asChar (char : UInt8) :
    (asChar char).toLower =
      if isAsciiUppercase char then asChar (char + 32) else asChar char := by
  have hall : ∀ n : Fin 256, (asChar (.ofFin n)).toLower =
      if isAsciiUppercase (.ofFin n) then asChar (.ofFin n + 32)
        else asChar (.ofFin n) := by
    decide +kernel
  exact hall char.toFin

theorem isAsciiUppercase_of_isPunctuation {char : UInt8}
    (hchar : isPunctuation char = true) : isAsciiUppercase char = false := by
  simp only [isPunctuation, Bool.or_eq_true, beq_iff_eq] at hchar
  rcases hchar with (rfl | rfl) | rfl <;> decide

theorem asChar_injective : Function.Injective asChar := by
  have hall : ∀ n : Fin 256, (asChar (.ofFin n)).toNat = n.val := by
    decide +kernel
  intro left right heq
  have hnat := congrArg Char.toNat heq
  have hvalue : left.toFin.val = right.toFin.val :=
    (hall left.toFin).symm.trans (hnat.trans (hall right.toFin))
  exact UInt8.toFin_inj.mp (Fin.ext hvalue)

theorem latin_injective : Function.Injective latin := by
  intro left right heq
  have hbytes : bytes left = bytes right :=
    List.map_injective_iff.mpr asChar_injective heq
  have hleft := List.utf8Decode?_utf8Encode (l := left)
  have hencode : left.utf8Encode = right.utf8Encode :=
    congrArg List.toByteArray hbytes
  rw [hencode, List.utf8Decode?_utf8Encode] at hleft
  simpa using hleft.symm

theorem latin_cons (c : Char) (rest : List Char) :
    latin (c :: rest) = latin [c] ++ latin rest := by
  simp [latin, bytes]

theorem latin_of_isAscii {c : Char} (hc : IsAscii c) : latin [c] = [c] := by
  have hsmall : c.val.toNat ≤ 127 := (Char.utf8Size_eq_one_iff).mp hc
  have hbyte : (UInt8.ofNat c.val.toNat).toNat = c.toNat := by
    rw [UInt8.toNat_ofNat', Nat.mod_eq_of_lt (by omega)]
    rfl
  simp only [latin, bytes, List.flatMap_cons, List.flatMap_nil, List.append_nil,
    String.utf8EncodeChar, if_pos hsmall, List.map_cons, List.map_nil, asChar, hbyte,
    Char.ofNat_toNat]

/-- The bytes of a character outside ASCII are all above its range. -/
theorem high_of_not_isAscii {c : Char} (hc : ¬ IsAscii c) :
    ∀ char ∈ bytes [c], 128 ≤ char := by
  have hlarge : ¬ c.val.toNat ≤ 127 := fun hsmall =>
    hc ((Char.utf8Size_eq_one_iff).mpr hsmall)
  have hhigh : ∀ n, 128 ≤ n → n < 256 → 128 ≤ UInt8.ofNat n := by
    intro n hn hlt
    rw [UInt8.le_iff_toNat_le, UInt8.toNat_ofNat', Nat.mod_eq_of_lt hlt]
    exact hn
  intro char hchar
  simp only [bytes, List.flatMap_cons, List.flatMap_nil, List.append_nil,
    String.utf8EncodeChar, if_neg hlarge] at hchar
  split_ifs at hchar <;>
    simp only [List.mem_cons, List.not_mem_nil, or_false] at hchar <;>
    rcases hchar with rfl | rfl | rfl | rfl <;>
    exact hhigh _ (by omega) (by omega)

/-- So what stands for it in the rewriting path is left alone there. -/
theorem kept_of_not_isAscii {c : Char} (hc : ¬ IsAscii c) :
    ∀ d ∈ latin [c], isNameSeparator d = false ∧ d.toLower = d := by
  have hall : ∀ n : Fin 256, 128 ≤ UInt8.ofFin n →
      isPunctuation (.ofFin n) = false ∧ isAsciiUppercase (.ofFin n) = false := by
    decide +kernel
  intro d hd
  obtain ⟨char, hchar, rfl⟩ := List.mem_map.mp hd
  obtain ⟨hpunctuation, hupper⟩ := hall char.toFin (high_of_not_isAscii hc char hchar)
  rw [isNameSeparator_asChar, toLower_asChar]
  refine ⟨hpunctuation, ?_⟩
  rw [if_neg]
  exact ne_true_of_eq_false hupper

theorem isAscii_of_separator {c : Char} (hc : isNameSeparator c = true) : IsAscii c := by
  simp only [isNameSeparator, Bool.or_eq_true, decide_eq_true_eq] at hc
  rcases hc with (rfl | rfl) | rfl <;> decide

theorem isAscii_of_isUpper {c : Char} (hc : c.isUpper = true) : IsAscii c := by
  simp only [Char.isUpper, decide_eq_true_eq] at hc
  exact (Char.utf8Size_eq_one_iff).mpr (UInt32.le_trans hc.2 (by decide))

theorem isAscii_toLower {c : Char} : IsAscii c.toLower ↔ IsAscii c := by
  by_cases hupper : c.isUpper = true
  · have hlower : IsAscii c.toLower := by
      have hbound := hupper
      simp only [Char.isUpper, decide_eq_true_eq] at hbound
      apply (Char.utf8Size_eq_one_iff).mpr
      rw [Char.toLower, dif_pos hbound, UInt32.le_iff_toNat_le, UInt32.toNat_add]
      have hle := UInt32.le_iff_toNat_le.mp hbound.2
      have hz : ('Z'.val).toNat = 90 := by decide
      have hshift : ('a'.val - 'A'.val).toNat = 32 := by decide
      have h127 : (127 : UInt32).toNat = 127 := by decide
      omega
    exact iff_of_true hlower (isAscii_of_isUpper hupper)
  · rw [Char.toLower_eq_of_not_isUpper hupper]

theorem length_latin (name : List Char) :
    (latin name).length = (name.map Char.utf8Size).sum := by
  simp [latin, bytes, List.length_flatMap]

theorem length_le_latin (name : List Char) : name.length ≤ (latin name).length := by
  rw [length_latin, ← List.length_map (f := Char.utf8Size)]
  apply List.length_le_sum_of_one_le
  intro size hsize
  obtain ⟨c, _, rfl⟩ := List.mem_map.mp hsize
  exact c.utf8Size_pos

/-- Text stands for itself in the rewriting path exactly when it is ASCII. -/
theorem latin_eq_self_iff {name : List Char} :
    latin name = name ↔ ∀ c ∈ name, IsAscii c := by
  induction name with
  | nil => simp [latin, bytes]
  | cons c rest ih =>
      rw [latin_cons, List.forall_mem_cons]
      constructor
      · intro heq
        have hlength := congrArg List.length heq
        have hc : IsAscii c := by
          have hpos := c.utf8Size_pos
          have hrest := length_le_latin rest
          have hsize := length_latin [c]
          simp only [List.map_cons, List.map_nil, List.sum_singleton] at hsize
          rw [List.length_append, List.length_cons, hsize] at hlength
          change c.utf8Size = 1
          omega
        rw [latin_of_isAscii hc, List.singleton_append, List.cons.injEq] at heq
        exact ⟨hc, ih.mp heq.2⟩
      · rintro ⟨hc, hrest⟩
        rw [latin_of_isAscii hc, ih.mpr hrest, List.singleton_append]

/-! ## The two scans -/

theorem replaceRuns_kept {kept : List Char}
    (hkept : ∀ d ∈ kept, isNameSeparator d = false ∧ d.toLower = d) (rest : List Char) :
    replaceRuns (kept ++ rest) = kept ++ replaceRuns rest := by
  induction kept with
  | nil => rfl
  | cons d kept ih =>
      obtain ⟨⟨hseparator, hlower⟩, hkept⟩ := List.forall_mem_cons.mp hkept
      rw [List.cons_append, replaceRuns_word hseparator, ih hkept, hlower,
        List.cons_append]

theorem dropWhile_latin (name : List Char) :
    (latin name).dropWhile isNameSeparator = latin (name.dropWhile isNameSeparator) := by
  induction name with
  | nil => rfl
  | cons c rest ih =>
      rw [latin_cons]
      by_cases hc : IsAscii c
      · rw [latin_of_isAscii hc, List.singleton_append, List.dropWhile_cons,
          List.dropWhile_cons]
        split
        · exact ih
        · rw [latin_cons, latin_of_isAscii hc, List.singleton_append]
      · have hc' : isNameSeparator c = false := by
          rw [Bool.eq_false_iff]
          exact fun hseparator => hc (isAscii_of_separator hseparator)
        obtain ⟨d, tail, hlatin⟩ : ∃ d tail, latin [c] = d :: tail := by
          apply List.exists_cons_of_length_pos
          exact Nat.lt_of_lt_of_le (by simp) (length_le_latin [c])
        have hd := (kept_of_not_isAscii hc d (by rw [hlatin]; simp)).1
        rw [hlatin, List.cons_append, List.dropWhile_cons, List.dropWhile_cons, hd, hc',
          if_neg Bool.false_ne_true, if_neg Bool.false_ne_true, latin_cons, hlatin,
          List.cons_append]

/-- Rewriting a text and reading its bytes as characters may be done in either
order. -/
theorem replaceRuns_latin (name : List Char) :
    replaceRuns (latin name) = latin (replaceRuns name) := by
  induction name using replaceRuns.induct with
  | case1 => simp [latin, bytes, replaceRuns]
  | case2 c rest hseparator ih =>
      have hc := isAscii_of_separator hseparator
      rw [latin_cons, latin_of_isAscii hc, List.singleton_append,
        replaceRuns_separator hseparator, replaceRuns_separator hseparator,
        dropWhile_latin, ih, latin_cons '-']
      rfl
  | case3 c rest hseparator ih =>
      have hword : isNameSeparator c = false := eq_false_of_ne_true hseparator
      rw [replaceRuns_word hword, latin_cons, latin_cons c.toLower, ← ih]
      by_cases hc : IsAscii c
      · rw [latin_of_isAscii hc, latin_of_isAscii (isAscii_toLower.mpr hc),
          List.singleton_append, replaceRuns_word hword, List.singleton_append]
      · rw [replaceRuns_kept (kept_of_not_isAscii hc), Char.toLower_eq_of_not_isUpper]
        exact fun hupper => hc (isAscii_of_isUpper hupper)

/-- The rewriting path replaces runs in what it reads. -/
theorem normalizeLoop_spec (rest : List UInt8) (last : Option UInt8)
    (normalized : List Char) :
    normalizeLoop rest last normalized = normalized ++ replaceRuns
      (if last.any isPunctuation then (rest.map asChar).dropWhile isNameSeparator
        else rest.map asChar) := by
  induction rest generalizing last normalized with
  | nil =>
      simp [normalizeLoop, replaceRuns]
  | cons char rest ih =>
      have hseparator := isNameSeparator_asChar char
      have hlower := toLower_asChar char
      rw [normalizeLoop, List.map_cons]
      by_cases hpunctuation : isPunctuation char = true
      · have hupper := isAsciiUppercase_of_isPunctuation hpunctuation
        rw [hpunctuation] at hseparator
        rw [hupper, if_neg Bool.false_ne_true, if_pos hpunctuation]
        by_cases hlast : last.any isPunctuation = true
        · rw [if_pos hlast, ih, if_pos hlast, if_pos hlast,
            List.dropWhile_cons_of_pos hseparator]
        · rw [if_neg hlast, ih, if_neg hlast, Option.any_some, if_pos hpunctuation,
            replaceRuns_separator hseparator, List.append_assoc, List.singleton_append]
      · have hword := eq_false_of_ne_true hpunctuation
        rw [hword] at hseparator
        have hkeep : (if last.any isPunctuation = true then
            (asChar char :: rest.map asChar).dropWhile isNameSeparator
              else asChar char :: rest.map asChar) = asChar char :: rest.map asChar := by
          rw [List.dropWhile_cons, hseparator, if_neg Bool.false_ne_true, ite_self]
        rw [hkeep, if_neg hpunctuation, ih, ih, Option.any_some, if_neg hpunctuation,
          replaceRuns_word hseparator, hlower]
        split <;> rw [List.append_assoc, List.singleton_append]

/-- The rewriting path replaces runs as it should, but in the bytes it takes for
characters. -/
theorem normalize_eq (name : List Char) :
    normalize name = latin (replaceRuns name) := by
  rw [normalize, normalizeLoop_spec, ← replaceRuns_latin]
  rfl

/-! ## Normalized texts -/

/-- A character that is no capital, underscore or dot. -/
def IsKept (c : Char) : Prop := c.isUpper = false ∧ c ≠ '_' ∧ c ≠ '.'

/-- A text with nothing to rewrite. -/
structure Normal (name : List Char) : Prop where
  kept : ∀ c ∈ name, IsKept c
  dashes : name.IsChain fun c d => c = '-' → d ≠ '-'

theorem isKept_asChar (char : UInt8) : IsKept (asChar char) ↔
    isAsciiUppercase char = false ∧ (char == 95 || char == 46) = false := by
  have hall : ∀ n : Fin 256, ((asChar (.ofFin n)).isUpper = false ∧
      asChar (.ofFin n) ≠ '_' ∧ asChar (.ofFin n) ≠ '.') ↔
        isAsciiUppercase (.ofFin n) = false ∧
          ((UInt8.ofFin n) == 95 || (UInt8.ofFin n) == 46) = false := by
    decide +kernel
  exact hall char.toFin

theorem asChar_eq_dash (char : UInt8) : asChar char = '-' ↔ char = 45 := by
  have hdash : asChar 45 = '-' := by decide
  rw [← hdash, asChar_injective.eq_iff]

theorem isNormalizedLoop_spec (rest : List UInt8) (last : Option UInt8) :
    isNormalizedLoop rest last = true ↔ (∀ c ∈ rest.map asChar, IsKept c) ∧
      (last.toList.map asChar ++ rest.map asChar).IsChain
        fun c d => c = '-' → d ≠ '-' := by
  induction rest generalizing last with
  | nil => cases last <;> simp [isNormalizedLoop]
  | cons char rest ih =>
      rw [isNormalizedLoop, List.map_cons, List.forall_mem_cons, isKept_asChar]
      cases hupper : isAsciiUppercase char with
      | true => simp
      | false =>
          cases hother : (char == 95 || char == 46) with
          | true => simp
          | false =>
              rw [if_neg Bool.false_ne_true, if_neg Bool.false_ne_true]
              cases last with
              | none =>
                  simp only [beq_iff_eq, Bool.and_eq_true, reduceCtorEq, and_false,
                    if_false, ih]
                  simp
              | some last =>
                  have hrun : (char == 45 && some last == some 45) = true ↔
                      asChar last = '-' ∧ asChar char = '-' := by
                    rw [asChar_eq_dash, asChar_eq_dash]
                    simp [and_comm]
                  by_cases hdash : asChar last = '-' ∧ asChar char = '-'
                  · rw [if_pos (hrun.mpr hdash)]
                    simp [hdash]
                  · rw [if_neg (mt hrun.mp hdash), ih]
                    simp only [Option.toList_some, List.map_cons, List.map_nil,
                      List.singleton_append, List.isChain_cons_cons]
                    tauto

theorem isNormalized_iff_latin (name : List Char) :
    isNormalized name = true ↔ Normal (latin name) := by
  rw [isNormalized, isNormalizedLoop_spec]
  exact ⟨fun h => ⟨h.1, h.2⟩, fun h => ⟨h.kept, h.dashes⟩⟩

theorem isNameSeparator_of_isKept {c : Char} (hc : IsKept c) :
    isNameSeparator c = true ↔ c = '-' := by
  simp [isNameSeparator, hc.2.1, hc.2.2]

/-- Nothing is rewritten in a text with nothing to rewrite. -/
theorem Normal.replaceRuns_eq {name : List Char} (hname : Normal name) :
    replaceRuns name = name := by
  induction name with
  | nil => simp [replaceRuns]
  | cons c rest ih =>
      obtain ⟨hc, hrest⟩ := List.forall_mem_cons.mp hname.kept
      have ih := ih ⟨hrest, hname.dashes.tail⟩
      by_cases hdash : c = '-'
      · have hseparator := (isNameSeparator_of_isKept hc).mpr hdash
        have hdrop : rest.dropWhile isNameSeparator = rest := by
          cases rest with
          | nil => rfl
          | cons d rest =>
              have hd : d ≠ '-' := (List.isChain_cons_cons.mp hname.dashes).1 hdash
              rw [List.dropWhile_cons_of_neg]
              exact mt (isNameSeparator_of_isKept (hrest d (by simp))).mp hd
        rw [replaceRuns_separator hseparator, hdrop, ih, hdash]
      · have hword : isNameSeparator c = false := by
          rw [Bool.eq_false_iff]
          exact mt (isNameSeparator_of_isKept hc).mp hdash
        rw [replaceRuns_word hword, ih, Char.toLower_eq_of_not_isUpper (by simp [hc.1])]

theorem isKept_toLower {c : Char} (hc : isNameSeparator c = false) :
    IsKept c.toLower ∧ c.toLower ≠ '-' := by
  have hsame : ∀ d : Char, d.isAlpha = false → c ≠ d → c.toLower ≠ d := by
    intro d hd hne heq
    have halpha : c.isAlpha = false := by
      rw [← Char.isAlpha_toLower_eq_isAlpha, heq, hd]
    rw [Char.toLower_eq_of_not_isUpper] at heq
    · exact hne heq
    · intro hupper
      simp [Char.isAlpha, hupper] at halpha
  simp only [isNameSeparator, Bool.or_eq_false_iff, decide_eq_false_iff_not] at hc
  obtain ⟨⟨hdash, hunderscore⟩, hdot⟩ := hc
  exact ⟨⟨by simp, hsame '_' (by decide) hunderscore, hsame '.' (by decide) hdot⟩,
    hsame '-' (by decide) hdash⟩

theorem head_replaceRuns {name : List Char}
    (hname : ∀ c ∈ name.head?, isNameSeparator c = false) :
    ∀ d ∈ (replaceRuns name).head?, d ≠ '-' := by
  cases name with
  | nil => simp [replaceRuns]
  | cons c rest =>
      have hc := hname c (by simp)
      rw [replaceRuns_word hc]
      simpa using (isKept_toLower hc).2

/-- What is rewritten has nothing left to rewrite. -/
theorem normal_replaceRuns (name : List Char) : Normal (replaceRuns name) := by
  induction name using replaceRuns.induct with
  | case1 => exact ⟨by simp [replaceRuns], by simp [replaceRuns]⟩
  | case2 c rest hseparator ih =>
      rw [replaceRuns_separator hseparator]
      refine ⟨List.forall_mem_cons.mpr ⟨⟨by decide, by decide, by decide⟩, ih.kept⟩, ?_⟩
      refine List.isChain_cons.mpr ⟨fun d hd _ => ?_, ih.dashes⟩
      refine head_replaceRuns (fun e he => ?_) d hd
      have hnot := List.head?_dropWhile_not isNameSeparator rest
      rw [Option.mem_def.mp he] at hnot
      simpa using hnot
  | case3 c rest hword ih =>
      obtain ⟨hkept, hdash⟩ := isKept_toLower (eq_false_of_ne_true hword)
      rw [replaceRuns_word (eq_false_of_ne_true hword)]
      refine ⟨List.forall_mem_cons.mpr ⟨hkept, ih.kept⟩, ?_⟩
      exact List.isChain_cons.mpr ⟨fun d _ heq => absurd heq hdash, ih.dashes⟩

theorem replaceRuns_eq_self_iff {name : List Char} :
    replaceRuns name = name ↔ Normal name := by
  constructor
  · intro heq
    rw [← heq]
    exact normal_replaceRuns name
  · exact Normal.replaceRuns_eq

/-- The scan of the bytes finds the texts with nothing to rewrite. -/
theorem isNormalized_iff {name : List Char} :
    isNormalized name = true ↔ Normal name := by
  rw [isNormalized_iff_latin, ← replaceRuns_eq_self_iff, replaceRuns_latin,
    latin_injective.eq_iff, replaceRuns_eq_self_iff]

/-! ## Both paths -/

theorem forall_isAscii_replaceRuns {name : List Char} :
    (∀ c ∈ replaceRuns name, IsAscii c) ↔ ∀ c ∈ name, IsAscii c := by
  have hrun : ∀ rest : List Char, (∀ c ∈ rest.dropWhile isNameSeparator, IsAscii c) ↔
      ∀ c ∈ rest, IsAscii c := by
    intro rest
    induction rest with
    | nil => rfl
    | cons c rest ih =>
        rw [List.dropWhile_cons]
        split
        · rename_i hseparator
          rw [ih, List.forall_mem_cons]
          simp [isAscii_of_separator hseparator]
        · rfl
  induction name using replaceRuns.induct with
  | case1 => simp [replaceRuns]
  | case2 c rest hseparator ih =>
      have hdash : IsAscii '-' := by decide
      have hc := isAscii_of_separator hseparator
      rw [replaceRuns_separator hseparator, List.forall_mem_cons, List.forall_mem_cons]
      exact and_congr (iff_of_true hdash hc) (ih.trans (hrun rest))
  | case3 c rest hword ih =>
      rw [replaceRuns_word (eq_false_of_ne_true hword), List.forall_mem_cons,
        List.forall_mem_cons]
      exact and_congr isAscii_toLower ih

/-- The text of a new name: what it should be on the fast path, and the bytes of
that on the other. -/
theorem text_new (name : List Char) : (new name).text =
    if isNormalized name then replaceRuns name else latin (replaceRuns name) := by
  unfold new
  split
  · rename_i hnormalized
    exact (isNormalized_iff.mp hnormalized).replaceRuns_eq.symm
  · exact normalize_eq name

theorem latin_replaceRuns_eq_iff {name : List Char} :
    latin (replaceRuns name) = replaceRuns name ↔ ∀ c ∈ name, IsAscii c := by
  rw [latin_eq_self_iff, forall_isAscii_replaceRuns]

/-- A new name has nothing left to rewrite, on either path. -/
theorem normal_new (name : List Char) : Normal (new name).text := by
  rw [text_new, ← replaceRuns_latin]
  split <;> exact normal_replaceRuns _

theorem new_of_normal {name : List Char} (hname : Normal name) : new name = ⟨name⟩ := by
  rw [new, if_pos (isNormalized_iff.mpr hname)]

/-- A new name is what it should be exactly when there was nothing to rewrite or
all characters are ASCII.  Taking it once more changes nothing in any case, and
two spellings of one name compare equal exactly when the name is ASCII or both
took the same path. -/
theorem text_new_eq_replaceRuns_iff (name : List Char) :
    ((new name).text = replaceRuns name ↔
        Normal name ∨ ∀ c ∈ name, IsAscii c) ∧
      new (new name).text = new name ∧
      ∀ other, replaceRuns other = replaceRuns name →
        (new other = new name ↔
          (∀ c ∈ name, IsAscii c) ∨ (Normal other ↔ Normal name)) := by
  refine ⟨?_, new_of_normal (normal_new name), fun other hother => ?_⟩
  · rw [text_new]
    split
    · rename_i hnormalized
      simp [isNormalized_iff.mp hnormalized]
    · rename_i hnormalized
      rw [latin_replaceRuns_eq_iff, ← isNormalized_iff]
      simp [hnormalized]
  · have htext : new other = new name ↔ (new other).text = (new name).text :=
      ⟨congrArg text, fun heq => by cases hnew : new other; cases hnew' : new name; simp_all⟩
    have hascii : latin (replaceRuns name) = replaceRuns name ↔ ∀ c ∈ name, IsAscii c :=
      latin_replaceRuns_eq_iff
    rw [htext, text_new, text_new, hother, ← isNormalized_iff, ← isNormalized_iff,
      ← hascii]
    cases isNormalized other <;> cases isNormalized name <;> simp [eq_comm]

/-- A capital sends the accented letter through the rewriting path, so the two
spellings of one name differ. -/
theorem text_new_cafe :
    (new "Café".toList).text = "cafÃ©".toList ∧
      replaceRuns "Café".toList = "café".toList ∧
      new "Café".toList ≠ new "café".toList ∧
      ¬ ∀ name, (new name).text = replaceRuns name := by
  have hnew : (new "Café".toList).text = "cafÃ©".toList := by decide +kernel
  have hspec : replaceRuns "Café".toList = "café".toList := by
    simp [replaceRuns, isNameSeparator]
  have hother : (new "café".toList).text = "café".toList := by decide +kernel
  have hne : "cafÃ©".toList ≠ "café".toList := by decide
  refine ⟨hnew, hspec, fun heq => ?_, fun hall => ?_⟩
  · have htext := congrArg text heq
    rw [hnew, hother] at htext
    exact hne htext
  · have htext := hall "Café".toList
    rw [hnew, hspec] at htext
    exact hne htext

/-- The spellings of one ASCII name. -/
example : (["friendly-bard", "FRIENDLY-BARD", "friendly_bard", "friendly--bard",
    "FrIeNdLy-._.-bArD"].map fun input => (new input.toList).text) =
      List.replicate 5 "friendly-bard".toList := by
  decide +kernel

end DistInfoName

end Uv
