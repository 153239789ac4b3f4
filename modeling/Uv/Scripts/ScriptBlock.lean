import Uv.Scripts.ScriptTag

/-!
# Where the block of a script is

The text around the block of a script, and the block that a search by lines finds.  The
postlude is put together from its lines, so it keeps line feeds only, and the search commits
to the first occurrence of the opening pragma, whether or not it is a line.
-/

namespace Uv.Scripts

open Uv.Core

/-! ## Lines of the block -/

theorem prefix_of_lines {text line : List Char} {rest : List (List Char)}
    (hlines : lines text = line :: rest) : line <+: text := by
  induction text generalizing line rest with
  | nil => cases hlines
  | cons c tail ih =>
      rw [lines] at hlines
      split_ifs at hlines with hfeed hreturn
      · cases hlines
        exact List.nil_prefix
      · -- The line feed comes next, so the line is empty.
        cases tail with
        | nil => cases hlines
        | cons next tail =>
            cases hreturn.2
            cases hlines
            exact List.nil_prefix
      · cases hrest : lines tail with
        | nil =>
            rw [hrest] at hlines
            cases hlines
            exact List.prefix_cons_inj c |>.mpr List.nil_prefix
        | cons first others =>
            rw [hrest] at hlines
            cases hlines
            exact List.prefix_cons_inj c |>.mpr (ih hrest)

theorem eq_comment_of_stripComment {line : List Char}
    (hstrip : stripComment line = some closingPragma) : line = comment closingPragma := by
  unfold stripComment at hstrip
  split at hstrip
  · cases hstrip
  · cases hstrip
    rfl
  · cases hstrip

/-- The lines of a comment block come apart with what is stripped of them. -/
theorem commentBlock_eq_append {ls before after : List (List Char)} {stripped : List Char}
    (hblock : commentBlock ls = before ++ stripped :: after) :
    ∃ body line rest, ls = body ++ line :: rest ∧ body.length = before.length ∧
      (∀ other ∈ body, (stripComment other).isSome = true) ∧
      stripComment line = some stripped ∧ commentBlock rest = after := by
  induction before generalizing ls with
  | nil =>
      cases ls with
      | nil => cases hblock
      | cons line rest =>
          rw [commentBlock] at hblock
          cases hstrip : stripComment line with
          | none => simp [hstrip] at hblock
          | some other =>
              rw [hstrip] at hblock
              cases hblock
              exact ⟨[], line, rest, rfl, rfl, by simp, hstrip, rfl⟩
  | cons first before ih =>
      cases ls with
      | nil => cases hblock
      | cons line rest =>
          rw [commentBlock] at hblock
          cases hstrip : stripComment line with
          | none => simp [hstrip] at hblock
          | some other =>
              simp only [hstrip, List.cons_append, List.cons.injEq] at hblock
              obtain ⟨body, last, tail, rfl, hlength, hbody, hlast, htail⟩ := ih hblock.2
              refine ⟨line :: body, last, tail, rfl, by simp [hlength], ?_, hlast, htail⟩
              intro comment hcomment
              rcases List.mem_cons.mp hcomment with rfl | hcomment
              · rw [hstrip]
                rfl
              · exact hbody comment hcomment

theorem exists_commentBlock {body : List (List Char)}
    (hbody : ∀ line ∈ body, (stripComment line).isSome = true) (rest : List (List Char)) :
    ∃ stripped, stripped.length = body.length ∧
      commentBlock (body ++ rest) = stripped ++ commentBlock rest := by
  induction body with
  | nil => exact ⟨[], rfl, rfl⟩
  | cons line body ih =>
      obtain ⟨first, hfirst⟩ := Option.isSome_iff_exists.mp (hbody line List.mem_cons_self)
      obtain ⟨stripped, hlength, hblock⟩ := ih fun other hother =>
        hbody other (List.mem_cons_of_mem _ hother)
      refine ⟨first :: stripped, by simp [hlength], ?_⟩
      rw [List.cons_append, commentBlock, hfirst, hblock]
      rfl

/-- The last occurrence of an element is at one place only. -/
theorem length_eq_of_last {α : Type} [DecidableEq α] {x : α} {before after before' after' : List α}
    (heq : before ++ x :: after = before' ++ x :: after') (hafter : x ∉ after)
    (hafter' : x ∉ after') : before.length = before'.length := by
  have hlast : (before ++ x :: after).reverse.findIdx? (· = x) = some after.length :=
    findIdx_reverse_append hafter
  rw [heq, findIdx_reverse_append hafter', Option.some.injEq] at hlast
  have hlength := congrArg List.length heq
  simp only [List.length_append, List.length_cons] at hlength
  omega

/-! ## The text around the block -/

/-- A script, cut before the line of its opening pragma and after that of the closing one,
which is the last in the run of comments. -/
structure Frame (contents before block after : List Char) : Prop where
  split : contents = before ++ (block ++ after)
  first : find openingPragma contents = some before.length
  body : ∃ body, lines block = openingPragma :: (body ++ [comment closingPragma]) ∧
    ∀ line ∈ body, (stripComment line).isSome = true
  last : closingPragma ∉ commentBlock (lines after)
  ended : after = [] ∨ Ended block

theorem lines_of_frame {contents before block after : List Char}
    (hframe : Frame contents before block after) :
    lines (block ++ after) = lines block ++ lines after := by
  rcases hframe.ended with rfl | hended
  · rw [List.append_nil]
    exact (List.append_nil _).symm
  · exact lines_append hended after

/-- A tag comes from a block at the first occurrence of the opening pragma. -/
theorem parseBlock_of_parse {contents : List Char} {tag : ScriptTag}
    (hparse : ScriptTag.parse contents = .ok (some tag)) :
    ∃ index, find openingPragma contents = some index ∧
      parseBlock (contents.take index) (contents.drop index) = .ok (some tag) := by
  rw [ScriptTag.parse] at hparse
  cases hfind : find openingPragma contents with
  | none => simp [hfind] at hparse
  | some index =>
      simp only [hfind] at hparse
      split_ifs at hparse
      · exact ⟨index, rfl, hparse⟩
      · simp at hparse

theorem length_take_of_find {contents : List Char} {index : ℕ}
    (hfind : find openingPragma contents = some index) :
    (contents.take index).length = index := by
  have hat := ((find_eq_some_iff (by decide)).mp hfind).1
  have hlong : index ≤ contents.length := by
    by_contra hlong
    rw [List.drop_eq_nil_of_le (by omega), List.prefix_nil] at hat
    exact absurd hat (by decide)
  rw [List.length_take]
  omega

theorem exists_frame {contents : List Char} {tag : ScriptTag}
    (hparse : ScriptTag.parse contents = .ok (some tag)) :
    ∃ before block after, Frame contents before block after := by
  obtain ⟨index, hfind, hblock⟩ := parseBlock_of_parse hparse
  obtain ⟨rest, before, after, hlines, hcomments, hafter, -, -⟩ := lines_of_parseBlock hblock
  obtain ⟨body, line, tail, rfl, hlength, hbody, hclosing, rfl⟩ :=
    commentBlock_eq_append hcomments
  obtain ⟨block, others, hcut, hfront, hback, hended⟩ :=
    exists_cut (contents.drop index) (body.length + 2)
  have hothers : lines others = tail := by
    rw [hback, hlines]
    simp
  refine ⟨contents.take index, block, others, ?_, ?_, ⟨body, ?_, hbody⟩, ?_, hended⟩
  · rw [← hcut, List.take_append_drop]
  · rw [length_take_of_find hfind, hfind]
  · rw [hfront, hlines, eq_comment_of_stripComment hclosing]
    simp [List.take_append]
  · rwa [hothers]

/-- The postlude is what comes after the block, with its lines put together. -/
theorem postlude_of_frame {contents before block after : List Char} {tag : ScriptTag}
    (hparse : ScriptTag.parse contents = .ok (some tag))
    (hframe : Frame contents before block after) :
    tag.prelude = before ∧ tag.postlude = joinLines (lines after) ++ ['\n'] := by
  obtain ⟨index, hfind, hblock⟩ := parseBlock_of_parse hparse
  have hindex : index = before.length := Option.some.inj (hfind.symm.trans hframe.first)
  obtain ⟨rest, stripped, others, hlines, hcomments, hothers, hprelude, hpostlude⟩ :=
    lines_of_parseBlock hblock
  obtain ⟨body, hbody, hstrip⟩ := hframe.body
  have hdrop : contents.drop index = block ++ after := by
    rw [hindex, hframe.split, List.drop_left]
  rw [hdrop, lines_of_frame hframe, hbody, List.cons_append, List.cons.injEq] at hlines
  obtain ⟨-, rfl⟩ := hlines
  obtain ⟨stripped', hlength, hblock'⟩ :=
    exists_commentBlock hstrip (comment closingPragma :: lines after)
  rw [List.append_assoc, List.singleton_append, hblock', commentBlock,
    stripComment_comment] at hcomments
  have hsame := length_eq_of_last hcomments hframe.last hothers
  constructor
  · rw [hprelude, hindex, hframe.split, List.take_left]
  · rw [hpostlude, ← hsame, hlength]
    have hskip : (body ++ [comment closingPragma] ++ lines after).drop (body.length + 1) =
        lines after := List.drop_left' (by simp)
    rw [hskip]

/-- Lines put together are the text itself iff it ends with a line feed and no line feed
comes after a carriage return. -/
theorem joinLines_lines_iff {text : List Char} :
    joinLines (lines text) ++ ['\n'] = text ↔
      text.getLast? = some '\n' ∧ ¬ ['\r', '\n'] <:+: text := by
  constructor
  · intro heq
    have hlast : text.getLast? = some '\n' := by
      rw [← heq]
      simp
    have hended : Ended text := Or.inr hlast
    have hne : text ≠ [] := by
      rintro rfl
      cases hlast
    rw [joinLines_append, if_neg (lines_ne_nil hne hended)] at heq
    exact ⟨hlast, (unlines_lines_iff hended).mp heq⟩
  · rintro ⟨hlast, hplain⟩
    have hended : Ended text := Or.inr hlast
    have hne : text ≠ [] := by
      rintro rfl
      cases hlast
    rw [joinLines_append, if_neg (lines_ne_nil hne hended)]
    exact (unlines_lines_iff hended).mpr hplain

/-- A tag is the text around its block, and writing it changes the block only, exactly if
the text after the block ends with a line feed and has no carriage return before one. -/
theorem keeps_frame_iff {contents : List Char} {tag : ScriptTag}
    (hparse : ScriptTag.parse contents = .ok (some tag)) :
    (∃ before block after, Frame contents before block after) ∧
      ∀ before block after, Frame contents before block after →
        ((tag.prelude = before ∧ tag.postlude = after ∧
            ∀ metadata, tag.write metadata = before ++ serializeMetadata metadata ++ after) ↔
          after.getLast? = some '\n' ∧ ¬ ['\r', '\n'] <:+: after) := by
  refine ⟨exists_frame hparse, fun before block after hframe => ?_⟩
  obtain ⟨hprelude, hpostlude⟩ := postlude_of_frame hparse hframe
  rw [← joinLines_lines_iff, ← hpostlude]
  constructor
  · rintro ⟨-, hkept, -⟩
    exact hkept
  · intro hkept
    refine ⟨hprelude, hkept, fun metadata => ?_⟩
    rw [ScriptTag.write, hprelude, hkept]

/-- A block with one line of code after it. -/
theorem keeps_frame_iff_short :
    (∃ before block after, Frame "# /// script\n# ///\nx\n".toList before block after) ∧
      ∀ before block after, Frame "# /// script\n# ///\nx\n".toList before block after →
        (([] = before ∧ ['x', '\n'] = after ∧ ∀ metadata,
            ScriptTag.write ⟨[], ['\n'], ['x', '\n']⟩ metadata =
              before ++ serializeMetadata metadata ++ after) ↔
          after.getLast? = some '\n' ∧ ¬ ['\r', '\n'] <:+: after) := by
  have hparse : ScriptTag.parse "# /// script\n# ///\nx\n".toList =
      .ok (some ⟨[], ['\n'], ['x', '\n']⟩) := by decide +kernel
  exact keeps_frame_iff hparse

/-- The line endings of the code change. -/
theorem not_keeps_frame :
    ¬ ∀ contents tag before block after, ScriptTag.parse contents = .ok (some tag) →
      Frame contents before block after → tag.prelude = before ∧ tag.postlude = after := by
  intro hkeeps
  have hframe : Frame "# /// script\r\n# ///\r\nx\r\n".toList []
      "# /// script\r\n# ///\r\n".toList "x\r\n".toList :=
    ⟨by decide +kernel, by decide +kernel, ⟨[], by decide +kernel, by simp⟩,
      by decide +kernel, Or.inr (Or.inr (by decide +kernel))⟩
  have hkept := hkeeps _ ⟨[], ['\n'], ['x', '\n']⟩ _ _ _ (by decide +kernel) hframe
  exact absurd hkept.2 (by decide)

/-! ## The first block -/

/-- A line after `front` is the opening pragma, and the run of comments after it has the
lines `body` up to its last closing pragma. -/
def BlockAt (contents front : List Char) (body : List (List Char)) : Prop :=
  ∃ back rest after, contents = front ++ back ∧ Ended front ∧
    lines back = openingPragma :: rest ∧
    commentBlock rest = body ++ closingPragma :: after ∧ closingPragma ∉ after

structure FirstBlock (contents front : List Char) (body : List (List Char)) : Prop where
  block : BlockAt contents front body
  first : ∀ front' body', BlockAt contents front' body' → front.length ≤ front'.length

/-- A text up to the end of a line has the opening pragma iff it starts in it. -/
theorem infix_iff_starts {front back : List Char} (hended : Ended front) :
    openingPragma <:+: front ↔
      ∃ j < front.length, openingPragma <+: (front ++ back).drop j := by
  constructor
  · rintro ⟨left, right, rfl⟩
    refine ⟨left.length, ?_, ?_⟩
    · have hpos : 0 < openingPragma.length := by decide
      simp only [List.length_append]
      omega
    · simp only [List.append_assoc, List.drop_left]
      exact List.prefix_append _ _
  · rintro ⟨j, hj, hstarts⟩
    by_cases hlength : j + openingPragma.length ≤ front.length
    · have hfront : openingPragma <+: front.drop j :=
        prefix_drop_congr (List.prefix_append front back) (List.prefix_refl front) hlength
          hstarts
      exact hfront.isInfix.trans (List.drop_suffix j front).isInfix
    · -- Then the last line feed would be in the pragma.
      have hshort : front.drop j <+: openingPragma := by
        apply List.prefix_of_prefix_length_le _ hstarts
        · rw [List.length_drop]
          omega
        · exact (List.prefix_append front back).drop j
      have hfeed : '\n' ∈ front.drop j := by
        have hlast : front.getLast? = some '\n' := by
          rcases hended with rfl | hlast
          · simp at hj
          · exact hlast
        apply List.mem_of_getLast?
        rw [List.getLast?_drop, if_neg (by omega), hlast]
      exact absurd (hshort.subset hfeed) (by decide)

/-- The first block is found exactly if no text before it has the opening pragma; then its
metadata are the lines of the block, unless there is none. -/
theorem parse_firstBlock_iff {contents front : List Char} {body : List (List Char)}
    (hfirst : FirstBlock contents front body) :
    (∃ postlude, ScriptTag.parse contents = .ok (some ⟨front, unlines body, postlude⟩)) ↔
      body ≠ [] ∧ ¬ openingPragma <:+: front := by
  obtain ⟨back, rest, after, rfl, hended, hlines, hblock, hafter⟩ := hfirst.block
  have hfind : find openingPragma (front ++ back) = some front.length ↔
      ¬ openingPragma <:+: front := by
    have hstarts : openingPragma <:+: front ↔
        ∃ j < front.length, openingPragma <+: (front ++ back).drop j := infix_iff_starts hended
    rw [find_eq_some_iff (by decide), hstarts]
    simp [prefix_of_lines hlines]
  have hparse (hfront : ¬ openingPragma <:+: front) : ScriptTag.parse (front ++ back) =
      .ok (some ⟨front, joinLines body ++ ['\n'],
        joinLines (rest.drop (body.length + 1)) ++ ['\n']⟩) := by
    have hstart : front.length = 0 ∨ (front ++ back)[front.length - 1]? = some '\r' ∨
        (front ++ back)[front.length - 1]? = some '\n' := by
      rcases hended with rfl | hlast
      · exact Or.inl rfl
      · right
        right
        rw [List.getLast?_eq_getElem?] at hlast
        have hpos : front.length - 1 < front.length := by
          obtain ⟨h, -⟩ := List.getElem?_eq_some_iff.mp hlast
          exact h
        rw [List.getElem?_append_left hpos, hlast]
    rw [ScriptTag.parse, hfind.mpr hfront]
    simp only [if_pos hstart, List.take_left, List.drop_left]
    exact parseBlock_of_lines hlines hblock hafter
  constructor
  · rintro ⟨postlude, htag⟩
    have hfront : ¬ openingPragma <:+: front := by
      obtain ⟨index, hindex, hparsed⟩ := parseBlock_of_parse htag
      obtain ⟨_, _, _, _, _, _, hprelude, _⟩ := lines_of_parseBlock hparsed
      have hlength := length_take_of_find hindex
      rw [← hfind, hindex, ← hlength, ← hprelude]
    rw [hparse hfront] at htag
    refine ⟨?_, hfront⟩
    rintro rfl
    cases htag
  · rintro ⟨hbody, hfront⟩
    refine ⟨joinLines (rest.drop (body.length + 1)) ++ ['\n'], ?_⟩
    rw [hparse hfront, joinLines_append, if_neg hbody]

/-- A block is the first one if the pragma starts no earlier line. -/
theorem firstBlock_of_starts {contents front : List Char} {body : List (List Char)}
    (hblock : BlockAt contents front body)
    (hstarts : ∀ j < front.length, openingPragma <+: contents.drop j →
      ¬ Ended (contents.take j)) : FirstBlock contents front body := by
  refine ⟨hblock, ?_⟩
  rintro front' body' ⟨back, rest, after, rfl, hended, hlines, -, -⟩
  by_contra hshort
  apply hstarts front'.length (by omega)
  · rw [List.drop_left]
    exact prefix_of_lines hlines
  · rwa [List.take_left]

theorem parse_firstBlock_iff_start :
    (∃ postlude, ScriptTag.parse "# /// script\n# a\n# ///\n".toList =
      .ok (some ⟨[], unlines [['a']], postlude⟩)) ↔
      [['a']] ≠ [] ∧ ¬ openingPragma <:+: [] :=
  parse_firstBlock_iff (firstBlock_of_starts
    ⟨_, [['#', ' ', 'a'], comment closingPragma], [], rfl, Or.inl rfl, by decide +kernel,
      by decide +kernel, by simp⟩ (by simp))

/-- A string with the text of the pragma hides the block. -/
theorem not_parse_firstBlock :
    ¬ ∀ contents front body, FirstBlock contents front body →
      ∃ postlude, ScriptTag.parse contents =
        .ok (some ⟨front, unlines body, postlude⟩) := by
  intro hfound
  obtain ⟨postlude, hparse⟩ := hfound
    "x = '# /// script'\n# /// script\n# a\n# ///\n".toList "x = '# /// script'\n".toList
    [['a']] (firstBlock_of_starts
      ⟨"# /// script\n# a\n# ///\n".toList, [['#', ' ', 'a'], comment closingPragma], [],
        by decide +kernel, Or.inr (by decide +kernel), by decide +kernel, by decide +kernel,
        by simp⟩ (by unfold Ended; decide +kernel))
  have hnone : ScriptTag.parse "x = '# /// script'\n# /// script\n# a\n# ///\n".toList =
      .ok none := by decide +kernel
  rw [hnone] at hparse
  cases hparse

end Uv.Scripts
