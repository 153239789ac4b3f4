import Uv.Core.Lines

/-!
# Script metadata

The metadata of a script is a block of comment lines between two pragmas.  The closing
pragma is the last one in the run of comments, so what is read depends on the comments after
it; those of the postlude have no pragma.

A text is the list of its characters.  What is looked for in it is ASCII, so positions in
the bytes and in the characters correspond.
-/

namespace Uv.Scripts

open Uv.Core

/-! ## `ScriptTag::parse` -/

structure ScriptTag where
  /-- The content of the script before the metadata block. -/
  prelude : List Char
  /-- The metadata block. -/
  metadata : List Char
  /-- The content of the script after the metadata block. -/
  postlude : List Char
  deriving DecidableEq

inductive Pep723Error where
  | unclosedBlock
  deriving DecidableEq

/-- The opening pragma. -/
def openingPragma : List Char :=
  "# /// script".toList

/-- The closing pragma without the comment sign. -/
def closingPragma : List Char :=
  "///".toList

/-- The position of the first occurrence of a text. -/
def find (needle : List Char) : List Char → Option ℕ
  | [] => if needle = [] then some 0 else none
  | c :: rest =>
      if needle.isPrefixOf (c :: rest) then some 0 else (find needle rest).map (· + 1)

/-- A comment line without its sign and the space after it. -/
def stripComment : List Char → Option (List Char)
  | ['#'] => some []
  | '#' :: ' ' :: line => some line
  | _ => none

/-- The comment lines up to the first line that is not one. -/
def commentBlock : List (List Char) → List (List Char)
  | [] => []
  | line :: rest =>
      match stripComment line with
      | none => []
      | some line => line :: commentBlock rest

/-- The part of `ScriptTag::parse` after the opening pragma is found. -/
def parseBlock (prelude contents : List Char) : Except Pep723Error (Option ScriptTag) :=
  match lines contents with
  | [] => .ok none
  | first :: rest =>
      if first ≠ openingPragma then .ok none
      else
        let toml := commentBlock rest
        match toml.reverse.findIdx? (· = closingPragma) with
        | none => .error .unclosedBlock
        | some index =>
            let index := toml.length - index
            .ok (some ⟨prelude, joinLines (toml.take (index - 1)) ++ ['\n'],
              joinLines ((lines contents).drop (index + 1)) ++ ['\n']⟩)

/-- `ScriptTag::parse`, for contents that are UTF-8. -/
def ScriptTag.parse (contents : List Char) : Except Pep723Error (Option ScriptTag) :=
  match find openingPragma contents with
  | none => .ok none
  | some index =>
      -- The opening pragma is the first line or comes after a line ending.
      if index = 0 ∨ contents[index - 1]? = some '\r' ∨ contents[index - 1]? = some '\n' then
        parseBlock (contents.take index) (contents.drop index)
      else .ok none

/-! ## `serialize_metadata` -/

/-- A line as a comment; an empty one is only the sign. -/
def comment (line : List Char) : List Char :=
  if line = [] then ['#'] else '#' :: ' ' :: line

def serializeMetadata (metadata : List Char) : List Char :=
  openingPragma ++ ['\n'] ++ (lines metadata).flatMap (fun line => comment line ++ ['\n']) ++
    comment closingPragma ++ ['\n']

/-- `Pep723Script::write`: the contents that are written. -/
def ScriptTag.write (tag : ScriptTag) (metadata : List Char) : List Char :=
  tag.prelude ++ serializeMetadata metadata ++ tag.postlude

/-! ## Finding the pragma -/

theorem find_eq_some_iff {needle text : List Char} {index : ℕ} (hneedle : needle ≠ []) :
    find needle text = some index ↔
      needle <+: text.drop index ∧ ∀ j < index, ¬ needle <+: text.drop j := by
  induction text generalizing index with
  | nil => simp [find, hneedle]
  | cons c rest ih =>
      by_cases hstarts : needle <+: c :: rest
      · rw [find, if_pos (List.isPrefixOf_iff_prefix.mpr hstarts), Option.some.injEq]
        constructor
        · rintro rfl
          exact ⟨hstarts, by simp⟩
        · rintro ⟨_, hfirst⟩
          by_contra hne
          exact hfirst 0 (Nat.pos_of_ne_zero (Ne.symm hne)) hstarts
      · rw [find, if_neg (mt List.isPrefixOf_iff_prefix.mp hstarts), Option.map_eq_some_iff]
        constructor
        · rintro ⟨index, hfind, rfl⟩
          obtain ⟨hat, hfirst⟩ := ih.mp hfind
          refine ⟨hat, ?_⟩
          intro j hj
          cases j with
          | zero => exact hstarts
          | succ j => exact hfirst j (by omega)
        · rintro ⟨hat, hfirst⟩
          cases index with
          | zero => exact (hstarts hat).elim
          | succ index =>
              exact ⟨index, ih.mpr ⟨hat, fun j hj => hfirst (j + 1) (by omega)⟩, rfl⟩

/-- Whether a text occurs at a position depends on the characters there only. -/
theorem prefix_drop_congr {needle front x y : List Char} {j : ℕ} (hx : front <+: x)
    (hy : front <+: y) (hlength : j + needle.length ≤ front.length)
    (hneedle : needle <+: x.drop j) : needle <+: y.drop j := by
  have hfront : front.drop j <+: x.drop j := hx.drop j
  have hshort : needle <+: front.drop j := by
    apply List.prefix_of_prefix_length_le hneedle hfront
    rw [List.length_drop]
    omega
  exact hshort.trans (hy.drop j)

/-- What comes after the first occurrence has no effect on it. -/
theorem find_replace {needle text rest : List Char} {index : ℕ} (hneedle : needle ≠ [])
    (hfind : find needle text = some index) :
    find needle (text.take index ++ needle ++ rest) = some index := by
  obtain ⟨⟨tail, hat⟩, hfirst⟩ := (find_eq_some_iff hneedle).mp hfind
  have hpos := List.length_pos_iff.mpr hneedle
  have hlength : (text.take index).length = index := by
    have := congrArg List.length hat
    rw [List.length_append, List.length_drop] at this
    rw [List.length_take]
    omega
  apply (find_eq_some_iff hneedle).mpr
  constructor
  · rw [List.append_assoc, List.drop_left' hlength]
    exact List.prefix_append _ _
  · intro j hj hoccurs
    apply hfirst j hj
    apply prefix_drop_congr (List.prefix_append _ _) _ _ hoccurs
    · refine ⟨tail, ?_⟩
      rw [List.append_assoc, hat, List.take_append_drop]
    · rw [List.length_append, hlength]
      omega

/-! ## Comment blocks -/

theorem stripComment_comment (line : List Char) : stripComment (comment line) = some line := by
  cases line <;> rfl

theorem commentBlock_append (ls rest : List (List Char)) :
    commentBlock (ls.map comment ++ rest) = ls ++ commentBlock rest := by
  induction ls with
  | nil => rfl
  | cons line ls ih =>
      rw [List.map_cons, List.cons_append, commentBlock, stripComment_comment, ih]
      rfl

theorem commentBlock_drop {ls : List (List Char)} {n : ℕ} (hn : n ≤ (commentBlock ls).length) :
    commentBlock (ls.drop n) = (commentBlock ls).drop n := by
  induction ls generalizing n with
  | nil => simp [commentBlock]
  | cons line rest ih =>
      cases n with
      | zero => rfl
      | succ n =>
          rw [commentBlock] at hn ⊢
          cases hstrip : stripComment line with
          | none => simp [hstrip] at hn
          | some stripped =>
              simp only [hstrip, List.length_cons, Nat.add_le_add_iff_right] at hn
              simpa using ih hn

theorem findIdx_reverse_append {α : Type} [DecidableEq α] {x : α} {before after : List α}
    (hafter : x ∉ after) :
    (before ++ x :: after).reverse.findIdx? (· = x) = some after.length := by
  have hnone : after.reverse.findIdx? (fun y => decide (y = x)) = none := by
    rw [List.findIdx?_eq_none_iff]
    intro y hy
    rw [decide_eq_false_iff_not]
    rintro rfl
    exact hafter (List.mem_reverse.mp hy)
  have hsplit : (before ++ x :: after).reverse = after.reverse ++ x :: before.reverse := by simp
  rw [hsplit, List.findIdx?_append, hnone, List.findIdx?_cons]
  simp

/-- The last occurrence in a list splits it. -/
theorem findIdx_reverse_eq_some {α : Type} [DecidableEq α] {x : α} {xs : List α} {n : ℕ}
    (hfind : xs.reverse.findIdx? (· = x) = some n) :
    ∃ before after, xs = before ++ x :: after ∧ x ∉ after ∧ after.length = n := by
  have hmem : x ∈ xs.reverse := by
    obtain ⟨hlength, hat, _⟩ := List.findIdx?_eq_some_iff_getElem.mp hfind
    exact of_decide_eq_true hat ▸ List.getElem_mem hlength
  obtain ⟨after, before, hsplit, hafter⟩ := List.eq_append_cons_of_mem hmem
  have hxs : xs = before.reverse ++ x :: after.reverse := by
    have hreverse : xs.reverse.reverse = (after ++ x :: before).reverse := by rw [hsplit]
    simpa using hreverse
  have hafter' : x ∉ after.reverse := by simpa using hafter
  rw [hxs, findIdx_reverse_append hafter', Option.some.injEq] at hfind
  exact ⟨before.reverse, after.reverse, hxs, hafter', hfind⟩

/-! ## Writing metadata -/

/-- A closing pragma after `before` that is the last one makes a tag. -/
theorem parseBlock_of_lines {prelude contents : List Char} {before after : List (List Char)}
    {rest : List (List Char)} (hlines : lines contents = openingPragma :: rest)
    (hblock : commentBlock rest = before ++ closingPragma :: after)
    (hafter : closingPragma ∉ after) :
    parseBlock prelude contents = .ok (some ⟨prelude, joinLines before ++ ['\n'],
      joinLines (rest.drop (before.length + 1)) ++ ['\n']⟩) := by
  have hlength : (before ++ closingPragma :: after).length - after.length = before.length + 1 := by
    rw [List.length_append, List.length_cons]
    omega
  simp only [parseBlock, hlines, ne_eq, not_true_eq_false, if_false, hblock,
    findIdx_reverse_append hafter, hlength, Nat.add_sub_cancel, List.take_left,
    List.drop_succ_cons]

/-- A tag comes from the last closing pragma. -/
theorem lines_of_parseBlock {prelude contents : List Char} {tag : ScriptTag}
    (hparse : parseBlock prelude contents = .ok (some tag)) :
    ∃ rest before after, lines contents = openingPragma :: rest ∧
      commentBlock rest = before ++ closingPragma :: after ∧ closingPragma ∉ after ∧
        tag.prelude = prelude ∧
        tag.postlude = joinLines (rest.drop (before.length + 1)) ++ ['\n'] := by
  cases hlines : lines contents with
  | nil => simp [parseBlock, hlines] at hparse
  | cons first rest =>
      by_cases hfirst : first = openingPragma
      · subst hfirst
        cases hfind : (commentBlock rest).reverse.findIdx? (· = closingPragma) with
        | none => simp [parseBlock, hlines, hfind] at hparse
        | some index =>
            obtain ⟨before, after, hblock, hafter, _⟩ := findIdx_reverse_eq_some hfind
            rw [parseBlock_of_lines hlines hblock hafter] at hparse
            cases hparse
            exact ⟨rest, before, after, rfl, hblock, hafter, rfl, rfl⟩
      · simp [parseBlock, hlines, hfirst] at hparse

theorem serializeMetadata_eq (metadata : List Char) :
    serializeMetadata metadata = openingPragma ++ '\n' ::
      unlines ((lines metadata).map comment ++ [comment closingPragma]) := by
  simp [serializeMetadata, unlines, List.flatMap_map]

theorem plainLine_comment {line : List Char} (hline : PlainLine line) :
    PlainLine (comment line) := by
  rw [comment]
  split_ifs
  · constructor <;> simp
  · constructor
    · simp [hline.noLineFeed]
    · simp [hline.noCarriageReturn]

theorem plainLine_openingPragma : PlainLine openingPragma where
  noLineFeed := by decide
  noCarriageReturn := by decide

theorem plainLine_closingPragma : PlainLine closingPragma where
  noLineFeed := by decide
  noCarriageReturn := by decide

theorem lines_serializeMetadata {metadata : List Char} {rest : List (List Char)}
    (hmetadata : LineEndings metadata) (hrest : ∀ line ∈ rest, PlainLine line) :
    lines (serializeMetadata metadata ++ unlines rest) =
      openingPragma :: ((lines metadata ++ [closingPragma]).map comment ++ rest) := by
  have hbody : ∀ line ∈ (lines metadata ++ [closingPragma]).map comment, PlainLine line := by
    intro line hline
    obtain ⟨original, horiginal, rfl⟩ := List.mem_map.mp hline
    apply plainLine_comment
    rcases List.mem_append.mp horiginal with hmem | hmem
    · exact plainLine_of_mem hmetadata hmem
    · rw [List.mem_singleton.mp hmem]
      exact plainLine_closingPragma
  have hsplit : serializeMetadata metadata ++ unlines rest = openingPragma ++ '\n' ::
      (unlines ((lines metadata ++ [closingPragma]).map comment) ++ unlines rest) := by
    simp [serializeMetadata_eq]
  rw [hsplit, lines_line plainLine_openingPragma, lines_unlines_append hbody,
    lines_unlines hrest]

/-- The metadata as it is read: without lines, there is an empty line. -/
theorem joinLines_lines {metadata : List Char} (hreturn : '\r' ∉ metadata)
    (hlast : ∀ c ∈ metadata.getLast?, c = '\n') :
    joinLines (lines metadata) ++ ['\n'] = if metadata = [] then ['\n'] else metadata := by
  have hunlines := unlines_lines hreturn hlast
  rw [joinLines_append]
  by_cases hmetadata : metadata = []
  · rw [hmetadata]
    rfl
  · have hlines : lines metadata ≠ [] := by
      intro heq
      rw [heq] at hunlines
      exact hmetadata hunlines.symm
    rw [if_neg hlines, if_neg hmetadata, hunlines]

/-- Over the block of a tag, other metadata is read back with the same postlude. -/
theorem parseBlock_write {prelude contents metadata : List Char} {tag : ScriptTag}
    (hendings : LineEndings contents) (hparse : parseBlock prelude contents = .ok (some tag))
    (hreturn : '\r' ∉ metadata) (hlast : ∀ c ∈ metadata.getLast?, c = '\n') :
    tag.prelude = prelude ∧
      parseBlock prelude (serializeMetadata metadata ++ tag.postlude) = .ok (some ⟨prelude,
        if metadata = [] then ['\n'] else metadata, tag.postlude⟩) := by
  obtain ⟨rest, before, after, hlines, hblock, hafter, hprelude, hpostlude⟩ :=
    lines_of_parseBlock hparse
  have htail : commentBlock (rest.drop (before.length + 1)) = after := by
    rw [commentBlock_drop (by simp [hblock]), hblock]
    simp
  rw [joinLines_append] at hpostlude
  -- The lines of the postlude; if there were none, there is an empty one now.
  generalize hkept : (if rest.drop (before.length + 1) = [] then [[]]
    else rest.drop (before.length + 1)) = kept at hpostlude
  have hcomments : commentBlock kept = after := by
    rw [← hkept, ← htail]
    split_ifs with hempty
    · rw [hempty]
      rfl
    · rfl
  have hplain : ∀ line ∈ kept, PlainLine line := by
    intro line hline
    rw [← hkept] at hline
    split_ifs at hline
    · rw [List.mem_singleton.mp hline]
      constructor <;> simp
    · apply plainLine_of_mem hendings
      rw [hlines]
      exact List.mem_cons_of_mem _ (List.mem_of_mem_drop hline)
  have hnonempty : kept ≠ [] := by
    rw [← hkept]
    split_ifs with hempty
    · exact List.cons_ne_nil _ _
    · exact hempty
  have hnew := lines_serializeMetadata (lineEndings_of_noCarriageReturn hreturn) hplain
  have hnewBlock : commentBlock ((lines metadata ++ [closingPragma]).map comment ++ kept) =
      lines metadata ++ closingPragma :: after := by
    rw [commentBlock_append, hcomments]
    simp
  have hdrop : ((lines metadata ++ [closingPragma]).map comment ++ kept).drop
      ((lines metadata).length + 1) = kept := by
    apply List.drop_left'
    simp
  refine ⟨hprelude, ?_⟩
  rw [hpostlude, parseBlock_of_lines hnew hnewBlock hafter, hdrop,
    joinLines_lines hreturn hlast, joinLines_append kept, if_neg hnonempty]

/-- Metadata that is written over that of a tag is read back with the same prelude and
postlude; for metadata without lines, an empty line is read. -/
theorem parse_write {contents metadata : List Char} {tag : ScriptTag}
    (hendings : LineEndings contents) (hparse : ScriptTag.parse contents = .ok (some tag))
    (hreturn : '\r' ∉ metadata) (hlast : ∀ c ∈ metadata.getLast?, c = '\n') :
    ScriptTag.parse (tag.write metadata) = .ok (some ⟨tag.prelude,
      if metadata = [] then ['\n'] else metadata, tag.postlude⟩) := by
  rw [ScriptTag.parse] at hparse
  cases hfind : find openingPragma contents with
  | none => simp [hfind] at hparse
  | some index =>
      rw [hfind] at hparse
      by_cases hstart : index = 0 ∨ contents[index - 1]? = some '\r' ∨
          contents[index - 1]? = some '\n'
      · simp only [if_pos hstart] at hparse
        obtain ⟨hprelude, hwrite⟩ :=
          parseBlock_write (hendings.drop index) hparse hreturn hlast
        have hindex : index ≤ contents.length := by
          by_contra hlong
          have hat := ((find_eq_some_iff (by decide)).mp hfind).1
          rw [List.drop_eq_nil_of_le (by omega), List.prefix_nil] at hat
          exact absurd hat (by decide)
        have hlength : tag.prelude.length = index := by
          rw [hprelude, List.length_take]
          omega
        have hsplit : tag.write metadata =
            tag.prelude ++ (serializeMetadata metadata ++ tag.postlude) := by
          rw [ScriptTag.write, List.append_assoc]
        have hpragma : tag.write metadata = contents.take index ++ openingPragma ++ ('\n' ::
            (unlines ((lines metadata).map comment ++ [comment closingPragma]) ++
              tag.postlude)) := by
          rw [hsplit, serializeMetadata_eq, hprelude]
          simp
        have hfind' : find openingPragma (tag.write metadata) = some index := by
          rw [hpragma]
          exact find_replace (by decide) hfind
        have hbefore : index ≠ 0 → (tag.write metadata)[index - 1]? = contents[index - 1]? := by
          intro hne
          rw [hsplit, List.getElem?_append_left (by omega), hprelude, List.getElem?_take,
            if_pos (by omega)]
        have hstart' : index = 0 ∨ (tag.write metadata)[index - 1]? = some '\r' ∨
            (tag.write metadata)[index - 1]? = some '\n' := by
          by_cases hzero : index = 0
          · exact Or.inl hzero
          · rw [hbefore hzero]
            exact hstart
        rw [ScriptTag.parse, hfind']
        simp only [if_pos hstart']
        rw [hsplit, List.take_left' hlength, List.drop_left' hlength, hprelude]
        exact hwrite
      · simp [hstart] at hparse

/-- Metadata without lines is read back as an empty line. -/
theorem parse_write_noLines : ∃ contents tag,
    LineEndings contents ∧ ScriptTag.parse contents = .ok (some tag) ∧
      ScriptTag.parse (tag.write []) ≠ .ok (some ⟨tag.prelude, [], tag.postlude⟩) := by
  refine ⟨"# /// script\n# a\n# ///\nx\n".toList, ⟨[], "a\n".toList, "x\n".toList⟩,
    lineEndings_of_noCarriageReturn (by decide +kernel), by decide +kernel, by decide +kernel⟩

theorem parse_write_comment :
    ScriptTag.parse (ScriptTag.write ⟨[], ['a', '\n'], ['#', ' ', 'x', '\n']⟩ ['b', '\n']) =
      .ok (some ⟨[], ['b', '\n'], ['#', ' ', 'x', '\n']⟩) := by
  have hendings : LineEndings "# /// script\n# a\n# ///\n# x\n".toList :=
    lineEndings_of_noCarriageReturn (by decide +kernel)
  exact parse_write hendings (by decide +kernel) (by decide) (by simp)

end Uv.Scripts
