import Mathlib

/-!
# Lines of a text

A text is split at its line endings and joined again with line feeds.  Where every carriage
return is followed by a line feed, the lines have neither, and splitting what was joined
gives them back.
-/

namespace Uv.Core

/-- Put a character in front of the first line. -/
def consLine (c : Char) : List (List Char) → List (List Char)
  | [] => [[c]]
  | line :: rest => (c :: line) :: rest

/-- `str::lines`: a line ends with a line feed, or a carriage return and a line feed. -/
def lines : List Char → List (List Char)
  | [] => []
  | c :: rest =>
      if c = '\n' then [] :: lines rest
      else if c = '\r' ∧ rest.head? = some '\n' then lines rest
      else consLine c (lines rest)

/-- Every line with a line feed after it. -/
def unlines (ls : List (List Char)) : List Char :=
  ls.flatMap (· ++ ['\n'])

/-- The lines with line feeds between them. -/
def joinLines (ls : List (List Char)) : List Char :=
  List.intercalate ['\n'] ls

/-- A line without line endings. -/
structure PlainLine (line : List Char) : Prop where
  noLineFeed : '\n' ∉ line
  noCarriageReturn : '\r' ∉ line

/-- Every carriage return is followed by a line feed. -/
def LineEndings : List Char → Prop
  | [] => True
  | c :: rest => (c = '\r' → rest.head? = some '\n') ∧ LineEndings rest

theorem LineEndings.drop {text : List Char} (htext : LineEndings text) (n : ℕ) :
    LineEndings (text.drop n) := by
  induction n generalizing text with
  | zero => exact htext
  | succ n ih =>
      cases text with
      | nil => exact htext
      | cons c rest => exact ih htext.2

theorem lineEndings_of_noCarriageReturn {text : List Char} (htext : '\r' ∉ text) :
    LineEndings text := by
  induction text with
  | nil => trivial
  | cons c rest ih =>
      rw [List.mem_cons, not_or] at htext
      exact ⟨fun heq => (htext.1 heq.symm).elim, ih htext.2⟩

/-! ## Splitting what was joined -/

theorem lines_line {line rest : List Char} (hline : PlainLine line) :
    lines (line ++ '\n' :: rest) = line :: lines rest := by
  induction line with
  | nil => simp [lines]
  | cons c line ih =>
      have hfeed := hline.noLineFeed
      have hreturn := hline.noCarriageReturn
      rw [List.mem_cons, not_or] at hfeed hreturn
      rw [List.cons_append, lines, if_neg (Ne.symm hfeed.1),
        if_neg (fun h => hreturn.1 h.1.symm), ih ⟨hfeed.2, hreturn.2⟩, consLine]

theorem lines_unlines_append {ls : List (List Char)} (hls : ∀ line ∈ ls, PlainLine line)
    (rest : List Char) : lines (unlines ls ++ rest) = ls ++ lines rest := by
  induction ls with
  | nil => rfl
  | cons line ls ih =>
      have htail := ih fun other hother => hls other (List.mem_cons_of_mem _ hother)
      have hsplit : unlines (line :: ls) ++ rest = line ++ '\n' :: (unlines ls ++ rest) := by
        simp [unlines]
      rw [hsplit, lines_line (hls line List.mem_cons_self), htail, List.cons_append]

theorem lines_unlines {ls : List (List Char)} (hls : ∀ line ∈ ls, PlainLine line) :
    lines (unlines ls) = ls := by
  simpa [lines] using lines_unlines_append hls []

/-- Joined lines with a line feed at the end; no line at all is one empty line. -/
theorem joinLines_append (ls : List (List Char)) :
    joinLines ls ++ ['\n'] = unlines (if ls = [] then [[]] else ls) := by
  induction ls with
  | nil => rfl
  | cons line ls ih =>
      cases ls with
      | nil => simp [joinLines, unlines]
      | cons next ls =>
          rw [if_neg (List.cons_ne_nil _ _)] at ih ⊢
          have hjoin : joinLines (line :: next :: ls) =
              line ++ '\n' :: joinLines (next :: ls) := by
            simp [joinLines, List.intercalate]
          rw [hjoin, List.append_assoc, List.cons_append, ih]
          simp [unlines]

/-! ## The lines of a text -/

theorem plainLine_of_mem {text : List Char} (htext : LineEndings text) {line : List Char}
    (hline : line ∈ lines text) : PlainLine line := by
  induction text generalizing line with
  | nil => simp [lines] at hline
  | cons c rest ih =>
      have hrest : ∀ line ∈ lines rest, PlainLine line := fun line => ih htext.2
      rw [lines] at hline
      split_ifs at hline with hfeed hreturn
      · rcases List.mem_cons.mp hline with rfl | hmem
        · constructor <;> simp
        · exact hrest line hmem
      · exact hrest line hline
      · have hc : c ≠ '\r' := fun heq => hreturn ⟨heq, htext.1 heq⟩
        have hcons : ∀ tail, PlainLine tail → PlainLine (c :: tail) := by
          intro tail htail
          constructor
          · simp [htail.noLineFeed, Ne.symm hfeed]
          · simp [htail.noCarriageReturn, Ne.symm hc]
        cases hsplit : lines rest with
        | nil =>
            rw [hsplit, consLine, List.mem_singleton] at hline
            rw [hline]
            exact hcons [] ⟨by simp, by simp⟩
        | cons first others =>
            rw [hsplit, consLine] at hline
            rcases List.mem_cons.mp hline with rfl | hmem
            · apply hcons
              apply hrest
              rw [hsplit]
              exact List.mem_cons_self
            · apply hrest
              rw [hsplit]
              exact List.mem_cons_of_mem _ hmem

/-- A text of lines that all end with a line feed is its lines put together. -/
theorem unlines_lines {text : List Char} (hreturn : '\r' ∉ text)
    (hlast : ∀ c ∈ text.getLast?, c = '\n') : unlines (lines text) = text := by
  induction text with
  | nil => rfl
  | cons c rest ih =>
      rw [List.mem_cons, not_or] at hreturn
      have htail : unlines (lines rest) = rest := by
        apply ih hreturn.2
        intro last hmem
        cases rest with
        | nil => simp at hmem
        | cons next rest => exact hlast last (by rwa [List.getLast?_cons_cons])
      by_cases hfeed : c = '\n'
      · rw [hfeed]
        simpa [lines, unlines] using htail
      · rw [lines, if_neg hfeed, if_neg (fun h => hreturn.1 h.1.symm)]
        cases rest with
        | nil => exact absurd (hlast c rfl) hfeed
        | cons next rest =>
            cases hsplit : lines (next :: rest) with
            | nil => simp [hsplit, unlines] at htail
            | cons first others =>
                rw [hsplit] at htail
                rw [consLine, ← htail]
                simp [unlines]

/-! ## Parts of a text -/

/-- A part of a text up to the end of a line. -/
def Ended (text : List Char) : Prop :=
  text = [] ∨ text.getLast? = some '\n'

theorem Ended.tail {c : Char} {text : List Char} (hended : Ended (c :: text)) : Ended text := by
  cases text with
  | nil => exact Or.inl rfl
  | cons next rest =>
      right
      rcases hended with h | h
      · cases h
      · rwa [List.getLast?_cons_cons] at h

theorem Ended.ne_nil {c : Char} {text : List Char} (hended : Ended (c :: text))
    (hc : c ≠ '\n') : text ≠ [] := by
  rintro rfl
  rcases hended with h | h
  · cases h
  · exact hc (Option.some.inj h)

theorem lines_ne_nil {text : List Char} (htext : text ≠ []) (hended : Ended text) :
    lines text ≠ [] := by
  induction text with
  | nil => exact absurd rfl htext
  | cons c rest ih =>
      rw [lines]
      split_ifs with hfeed hreturn
      · exact List.cons_ne_nil _ _
      · have hc : c ≠ '\n' := hfeed
        exact ih (hended.ne_nil hc) hended.tail
      · cases lines rest <;> exact List.cons_ne_nil _ _

/-- The lines of a text are those of its first part, up to the end of a line, and those of
the rest. -/
theorem lines_append {front : List Char} (hended : Ended front) (back : List Char) :
    lines (front ++ back) = lines front ++ lines back := by
  induction front with
  | nil => rfl
  | cons c rest ih =>
      have hrest := ih hended.tail
      by_cases hfeed : c = '\n'
      · simp only [List.cons_append, lines, if_pos hfeed, hrest]
      · have hne := hended.ne_nil hfeed
        have hhead : (rest ++ back).head? = rest.head? := List.head?_append_of_ne_nil _ hne
        simp only [List.cons_append, lines, if_neg hfeed, hhead, hrest]
        split_ifs
        · rfl
        · cases hlines : lines rest with
          | nil => exact absurd hlines (lines_ne_nil hne hended.tail)
          | cons line others => rfl

theorem length_consLine {c : Char} {ls : List (List Char)} (hls : ls.length ≤ 1) :
    (consLine c ls).length = 1 := by
  cases ls with
  | nil => rfl
  | cons line rest => simpa [consLine] using hls

theorem length_lines_le {line : List Char} (hline : '\n' ∉ line) : (lines line).length ≤ 1 := by
  induction line with
  | nil => simp [lines]
  | cons c rest ih =>
      rw [List.mem_cons, not_or] at hline
      rw [lines, if_neg (Ne.symm hline.1)]
      split_ifs
      · exact ih hline.2
      · rw [length_consLine (ih hline.2)]

theorem length_lines_line {line : List Char} (hline : '\n' ∉ line) :
    (lines (line ++ ['\n'])).length = 1 := by
  induction line with
  | nil => rfl
  | cons c rest ih =>
      rw [List.mem_cons, not_or] at hline
      rw [List.cons_append, lines, if_neg (Ne.symm hline.1)]
      split_ifs
      · exact ih hline.2
      · exact length_consLine (ih hline.2).le

theorem Ended.append {front back : List Char} (hfront : Ended front) (hback : Ended back) :
    Ended (front ++ back) := by
  rcases hback with rfl | hback
  · rwa [List.append_nil]
  · exact Or.inr (by rw [List.getLast?_append, hback]; rfl)

/-- A text is cut after any number of its lines. -/
theorem exists_cut (text : List Char) (n : ℕ) :
    ∃ front back, text = front ++ back ∧ lines front = (lines text).take n ∧
      lines back = (lines text).drop n ∧ (back = [] ∨ Ended front) := by
  induction n generalizing text with
  | zero => exact ⟨[], text, rfl, rfl, rfl, Or.inr (Or.inl rfl)⟩
  | succ n ih =>
      by_cases hfeed : '\n' ∈ text
      · obtain ⟨line, rest, rfl, hline⟩ := List.eq_append_cons_of_mem hfeed
        obtain ⟨front, back, rfl, hfront, hback, hended⟩ := ih rest
        have hfirst : Ended (line ++ ['\n']) := Or.inr (by simp)
        have hsplit : line ++ '\n' :: (front ++ back) = line ++ ['\n'] ++ (front ++ back) := by
          simp
        obtain ⟨first, heq⟩ := List.length_eq_one_iff.mp (length_lines_line hline)
        refine ⟨line ++ ['\n'] ++ front, back, by simp, ?_, ?_, ?_⟩
        · rw [hsplit, lines_append hfirst, lines_append hfirst, heq, hfront]
          rfl
        · rw [hsplit, lines_append hfirst, heq, hback]
          rfl
        · exact hended.imp id hfirst.append
      · have hshort := length_lines_le hfeed
        refine ⟨text, [], (List.append_nil text).symm, ?_, ?_, Or.inl rfl⟩
        · rw [List.take_of_length_le (by omega)]
        · rw [List.drop_eq_nil_of_le (by omega)]
          rfl

/-! ## Texts that are kept -/

theorem unlines_consLine {c : Char} {ls : List (List Char)} (hls : ls ≠ []) :
    unlines (consLine c ls) = c :: unlines ls := by
  cases ls with
  | nil => exact absurd rfl hls
  | cons line rest => simp [consLine, unlines]

theorem length_unlines_lines_le {text : List Char} (hended : Ended text) :
    (unlines (lines text)).length ≤ text.length := by
  induction text with
  | nil => simp [lines, unlines]
  | cons c rest ih =>
      have hrest := ih hended.tail
      by_cases hfeed : c = '\n'
      · rw [lines, if_pos hfeed]
        simp only [unlines, List.flatMap_cons, List.nil_append, List.singleton_append,
          List.length_cons] at hrest ⊢
        omega
      · rw [lines, if_neg hfeed]
        split_ifs
        · rw [List.length_cons]
          omega
        · rw [unlines_consLine (lines_ne_nil (hended.ne_nil hfeed) hended.tail),
            List.length_cons, List.length_cons]
          omega

/-- A text up to the end of a line is its lines put together iff no line feed comes after a
carriage return. -/
theorem unlines_lines_iff {text : List Char} (hended : Ended text) :
    unlines (lines text) = text ↔ ¬ ['\r', '\n'] <:+: text := by
  induction text with
  | nil => simp [lines, unlines]
  | cons c rest ih =>
      have hrest := ih hended.tail
      rw [List.infix_cons_iff, not_or]
      have hpair : ['\r', '\n'] <+: c :: rest ↔ c = '\r' ∧ rest.head? = some '\n' := by
        rw [List.cons_prefix_cons, eq_comm]
        cases rest <;> simp [eq_comm]
      by_cases hfeed : c = '\n'
      · have hfront : ¬ (c = '\r' ∧ rest.head? = some '\n') := by
          rw [hfeed]
          rintro ⟨h, _⟩
          exact absurd h (by decide)
        have hcons : unlines ([] :: lines rest) = '\n' :: unlines (lines rest) := by
          simp [unlines]
        rw [lines, if_pos hfeed, hpair, hcons, hfeed, List.cons_inj_right, hrest]
        rw [hfeed] at hfront
        exact (and_iff_right hfront).symm
      · rw [lines, if_neg hfeed, hpair]
        split_ifs with hreturn
        · apply iff_of_false
          · intro heq
            have hlength := length_unlines_lines_le hended.tail
            rw [heq, List.length_cons] at hlength
            omega
          · exact fun h => h.1 hreturn
        · rw [unlines_consLine (lines_ne_nil (hended.ne_nil hfeed) hended.tail),
            List.cons_inj_right, hrest]
          exact (and_iff_right hreturn).symm

end Uv.Core
