import Uv.Requirements.LineBased

/-!
# All entries of a requirements file

Every entry takes a part of the text, so the calls of `parse_entry` end.  The entries of a
text with other lines after it are its own and then those of the other lines.
-/

set_option linter.unusedSectionVars false

namespace Uv.Requirements

open Uv.Core Uv.Pep508
open Uv.Pep440.VersionSpecifier (isWhitespace)

variable {E Requirement Url Specifier α β : Type} {b t rest : Text}

section Readers

variable (readers : Readers E Requirement Url Specifier)

/-! ## Progress -/

/-- Less than this is left. -/
def Leaves (n : ℕ) (result : Except (EntryError E) (α × Text)) : Prop :=
  ∀ value rest, result = .ok (value, rest) → rest.length < n

namespace Leaves

variable {n m : ℕ}

theorem ok {value : α} (hless : rest.length < n) :
    Leaves (E := E) n (.ok (value, rest)) := by
  rintro _ _ ⟨⟩
  exact hless

theorem bind {result : Except (EntryError E) (α × Text)}
    {next : α × Text → Except (EntryError E) (β × Text)} (hresult : Leaves n result)
    (hnext : ∀ value rest, rest.length < n → Leaves m (next (value, rest))) :
    Leaves m (result >>= next) := by
  cases result with
  | error e => nofun
  | ok read => exact hnext _ _ (hresult _ _ rfl)

theorem step {γ : Type} (result : Except (EntryError E) γ)
    {next : γ → Except (EntryError E) (β × Text)} (hnext : ∀ value, Leaves m (next value)) :
    Leaves m (result >>= next) := by
  cases result with
  | error e => nofun
  | ok value => exact hnext value

end Leaves

theorem parseValue_leaves (option : String) (condition : Char → Bool) {n : ℕ} {s : Text}
    (hless : s.length < n) : Leaves (E := E) n (parseValue option condition s) :=
  fun _ _ hparse => (suffix_parseValue hparse).length_le.trans_lt hless

theorem hashesLoop_leaves {n : ℕ} {s : Text} (hless : s.length < n) (hashes : List Text) :
    Leaves (E := E) n (hashesLoop hashes s) := by
  induction hlength : s.length using Nat.strong_induction_on generalizing s hashes n with
  | _ length ih =>
      subst hlength
      have hle := length_eatWrappableWhitespace s
      rw [hashesLoop_eq]
      cases hhash : eatIf "--hash" (eatWrappableWhitespace s) with
      | none => exact .ok (hle.trans_lt hless)
      | some left =>
          have hword := congrArg List.length (suffix_eatIf hhash)
          have hsix : "--hash".toList.length = 6 := rfl
          rw [List.length_append, hsix] at hword
          have hshorter : left.length < s.length := by omega
          apply (parseValue_leaves (n := s.length) _ _ hshorter).bind
          intro hash after hafter
          exact ih _ hafter (hafter.trans hless) _ rfl

theorem parseHashes_leaves {n : ℕ} {s : Text} (hless : s.length < n) :
    Leaves (E := E) n (parseHashes s) := by
  rw [parseHashes]
  split_ifs
  · intro hashes left heq
    cases heq
  · apply (parseValue_leaves (n := n) _ _ ((eatHashes_suffix s).length_le.trans_lt hless)).bind
    intro hash after hafter
    exact hashesLoop_leaves hafter _

theorem requirementLoop_length (taken s : Text) :
    (requirementLoop taken s).2.2.length ≤ s.length := by
  induction hlength : s.length using Nat.strong_induction_on generalizing s taken with
  | _ length ih =>
      subst hlength
      have hle := length_eatWrappableWhitespace s
      rw [requirementLoop.eq_def]
      cases hline : eatLineEnd s with
      | some left => exact (length_eatLineEnd hline).le
      | none =>
          dsimp only
          split_ifs with hless hdashes hhash
          · exact hle
          · have hcomment : (eatComment (eatWrappableWhitespace s).tail).length ≤ _ :=
              (List.dropWhile_suffix _).length_le
            exact (hcomment.trans (List.tail_suffix _).length_le).trans hle
          · exact (ih _ hless _ _ rfl).trans hle
          · cases s with
            | nil => exact le_rfl
            | cons c line => exact (ih _ (Nat.lt_succ_self _) _ line rfl).trans (Nat.le_succ _)

/-- No blanks are skipped before other characters. -/
theorem eatWrappableWhitespace_cons {c : Char} (hc : c ∉ [' ', '\t', '\\']) (rest : Text) :
    eatWrappableWhitespace (c :: rest) = c :: rest := by
  rw [List.mem_cons, List.mem_cons, List.mem_singleton, not_or, not_or] at hc
  obtain ⟨hspace, htab, hbackslash⟩ := hc
  rw [eatWrappableWhitespace]
  · exact fun _ heq => hspace (List.cons.inj heq).1
  · exact fun _ heq => htab (List.cons.inj heq).1
  · exact fun _ heq => hbackslash (List.cons.inj heq).1
  · exact fun _ heq => hbackslash (List.cons.inj heq).1
  · exact fun _ heq => hbackslash (List.cons.inj heq).1

/-- Characters that are no blanks and no line endings are taken. -/
theorem requirementLoop_cons {c : Char} (hline : c ∉ ['\n', '\r'])
    (hblank : c ∉ [' ', '\t', '\\']) (taken rest : Text) :
    requirementLoop taken (c :: rest) = requirementLoop (taken ++ [c]) rest := by
  rw [List.mem_cons, List.mem_singleton, not_or] at hline
  rw [requirementLoop.eq_def, eatLineEnd_cons_none hline.1 hline.2,
    eatWrappableWhitespace_cons hblank]
  dsimp only
  rw [if_neg (lt_irrefl _)]

theorem notMem_of_startsRequirement {c : Char} {cs : List Char}
    (hstart : startsRequirement c = true) (hcs : cs.any startsRequirement = false) : c ∉ cs := by
  intro hmem
  exact List.any_eq_false.mp hcs c hmem hstart

/-- A requirement that has begun is not empty. -/
theorem requirementLoop_start {c : Char} (hstart : startsRequirement c = true)
    (taken line : Text) :
    requirementLoop taken (c :: line) = requirementLoop (taken ++ [c]) line :=
  requirementLoop_cons (notMem_of_startsRequirement hstart (by decide))
    (notMem_of_startsRequirement hstart (by decide)) taken line

theorem parseRequirementAndHashes_leaves (editable : Bool) {n : ℕ} {s : Text}
    (hless : (requirementLoop [] s).2.2.length < n) :
    Leaves n (parseRequirementAndHashes readers editable s) := by
  rw [parseRequirementAndHashes]
  generalize requirementLoop [] s = read at hless ⊢
  obtain ⟨requirement, hasHashes, left⟩ := read
  dsimp only
  by_cases hfile : (".txt".toList <:+ requirement ∨ ".in".toList <:+ requirement) ∧
      readers.isFile requirement = true
  · rw [if_pos hfile]
    intro value after heq
    cases heq
  · rw [if_neg hfile]
    apply Leaves.step
    intro parsed
    cases hasHashes with
    | false => exact .ok hless
    | true => exact (parseHashes_leaves hless).bind fun hashes after hafter => .ok hafter

/-- Less is left than there was. -/
def Shortens (read : EntryReader E Requirement Url Specifier) : Prop :=
  ∀ n s, s.length < n → Leaves n (read s)

theorem parseUnquoted_leaves (option : String) {n : ℕ} {s : Text} (hless : s.length < n) :
    Leaves n (parseUnquoted readers option s) :=
  (parseValue_leaves option _ hless).bind fun _ _ hafter => .ok hafter

theorem readEditable_shortens : Shortens (readEditable readers) := by
  intro n s hless
  apply (parseRequirementAndHashes_leaves readers true
    ((requirementLoop_length [] s).trans_lt hless)).bind
  exact fun _ _ hafter => .step _ fun _ => .ok hafter

theorem parseEditable_shortens : Shortens (parseEditable readers) := by
  intro n s hless
  rw [parseEditable.eq_def]
  split
  · exact readEditable_shortens readers n _ ((Nat.lt_succ_self _).trans hless)
  · split_ifs
    · exact readEditable_shortens readers n _ ((List.dropWhile_suffix _).length_le.trans_lt hless)
    · nofun

theorem options_shorten : ∀ option ∈ options readers, Shortens option.2 := by
  have hfile : ∀ option entry, Shortens (parseFile readers option entry) :=
    fun option entry n s hless =>
      (parseUnquoted_leaves readers option hless).bind fun _ _ hafter => .ok hafter
  have hurl : ∀ option entry, Shortens (parseUrlOption readers option entry) :=
    fun option entry n s hless => (parseUnquoted_leaves readers option hless).bind
      fun _ _ hafter => .step _ fun _ => .ok hafter
  have hspecifier : ∀ option entry, Shortens (parseSpecifierOption readers option entry) :=
    fun option entry n s hless => (parseUnquoted_leaves readers option hless).bind
      fun _ _ hafter => .step _ fun _ => .ok hafter
  simp only [options, List.forall_mem_cons]
  exact ⟨hfile _ _, hfile _ _, parseEditable_shortens readers, hurl _ _, hurl _ _,
    fun n s hless => .ok hless, hurl _ _, hspecifier _ _, hspecifier _ _,
    fun _ hmem => (List.not_mem_nil hmem).elim⟩

theorem readOption_leaves {options : List (List String × EntryReader E Requirement Url Specifier)}
    (hlines : ∀ option ∈ options, OptionLines [] option)
    (hoptions : ∀ option ∈ options, Shortens option.2) {s : Text}
    {result : Except (EntryError E) (Entry Requirement Url Specifier × Text)}
    (hread : readOption options s = some result) : Leaves s.length result := by
  obtain ⟨option, hmem, hoption⟩ := List.exists_of_findSome?_eq_some hread
  obtain ⟨left, hleft, rfl⟩ := Option.map_eq_some_iff.mp hoption
  obtain ⟨name, hname, heat⟩ := List.exists_of_findSome?_eq_some hleft
  apply hoptions option hmem
  have hword := congrArg List.length (suffix_eatIf heat)
  have hpos := List.length_pos_iff.mpr ((hlines option hmem).names name hname).1
  rw [List.length_append] at hword
  omega

/-- Every entry takes a part of the text. -/
theorem readEntry_length {s : Text} {entry : Entry Requirement Url Specifier}
    (hread : readEntry readers s = .ok (some (entry, rest))) : rest.length < s.length := by
  have hmap : ∀ {result : Except (EntryError E) (Entry Requirement Url Specifier × Text)},
      Leaves s.length result → result.map some = .ok (some (entry, rest)) →
        rest.length < s.length := by
    intro result hleaves heq
    cases result with
    | error e => cases heq
    | ok read =>
        cases heq
        exact hleaves _ _ rfl
  rw [readEntry] at hread
  split at hread
  · rename_i hoption
    exact hmap (readOption_leaves (options_lines readers) (options_shorten readers) hoption) hread
  · split_ifs at hread with hstart hempty
    · cases s with
      | nil => cases hstart
      | cons c line =>
          refine hmap ?_ hread
          have hloop : (requirementLoop [] (c :: line)).2.2.length < (c :: line).length := by
            rw [requirementLoop_start hstart]
            exact Nat.lt_succ_of_le (requirementLoop_length _ line)
          exact (parseRequirementAndHashes_leaves readers false hloop).bind
            fun _ _ hafter => .ok hafter
    · cases hread
    · split at hread
      · rename_i hoption
        refine hmap (readOption_leaves (unsupportedOptions_lines (E := E)) ?_ hoption) hread
        intro option hmem n s hless
        obtain ⟨unsupported, _, rfl⟩ := List.mem_map.mp hmem
        exact .ok ((List.dropWhile_suffix _).length_le.trans_lt hless)
      · cases hread

theorem parseEntry_length {s : Text} {entry : Entry Requirement Url Specifier}
    (hparse : parseEntry readers s = .ok (some (entry, rest))) : rest.length < s.length := by
  have hskip : ∀ s left, (skipTrivia s : Except (EntryError E) Text) = .ok left →
      left.length ≤ s.length := by
    intro s
    induction hlength : s.length using Nat.strong_induction_on generalizing s with
    | _ length ih =>
        subst hlength
        intro left hleft
        have hle := length_eatWrappableWhitespace s
        cases hterminal : (eatWrappableWhitespace s).head?.any isTerminal with
        | false =>
            rw [skipTrivia_of_not hterminal] at hleft
            cases hleft
            exact hle
        | true =>
            rcases eatTrailingLine_of_terminal (E := E) hterminal with ⟨comment, hcomment, _⟩ |
              ⟨line, hline, _⟩
            · rw [skipTrivia_comment hcomment] at hleft
              rw [hcomment] at hle
              have hshorter : (eatComment comment).length < s.length :=
                (List.dropWhile_suffix _).length_le.trans_lt hle
              exact (ih _ hshorter _ rfl left hleft).trans hshorter.le
            · rw [skipTrivia_line hline] at hleft
              have hshorter := (length_eatLineEnd hline).trans_le hle
              exact (ih _ hshorter _ rfl left hleft).trans hshorter.le
  rw [parseEntry] at hparse
  cases hleft : (skipTrivia s : Except (EntryError E) Text) with
  | error e =>
      rw [hleft] at hparse
      cases hparse
  | ok left =>
      rw [hleft] at hparse
      exact (readEntry_length readers hparse).trans_le (hskip s left hleft)

/-! ## All entries -/

variable {readers}

theorem Entries.unique {left right : Except (EntryError E) (List (Entry Requirement Url Specifier))}
    (hleft : Entries readers t left) (hright : Entries readers t right) : left = right := by
  induction hleft generalizing right with
  | done hparse =>
      cases hright with
      | done => rfl
      | fails hother => cases hparse.symm.trans hother
      | next hother => cases hparse.symm.trans hother
  | fails hparse =>
      cases hright with
      | done hother => cases hparse.symm.trans hother
      | fails hother =>
          cases hparse.symm.trans hother
          rfl
      | next hother => cases hparse.symm.trans hother
  | next hparse _ ih =>
      cases hright with
      | done hother => cases hparse.symm.trans hother
      | fails hother => cases hparse.symm.trans hother
      | next hother hrest =>
          cases hparse.symm.trans hother
          rw [ih hrest]

/-- The entries of a text only depend on its first entry and what is left after it. -/
theorem Entries.congr {s s' : Text}
    {result : Except (EntryError E) (List (Entry Requirement Url Specifier))}
    (hparse : parseEntry readers s' = parseEntry readers s) (hentries : Entries readers s result) :
    Entries readers s' result := by
  cases hentries with
  | done hdone => exact .done (hparse.trans hdone)
  | fails hfails => exact .fails (hparse.trans hfails)
  | next hnext hrest => exact .next (hparse.trans hnext) hrest

theorem entries_nil : Entries readers [] (.ok []) := by
  apply Entries.done
  rw [parseEntry, skipTrivia_of_not rfl]
  exact readEntry_nil readers

theorem toOption_map (result : Except E α) (f : α → β) :
    (result.map f).toOption = result.toOption.map f := by
  cases result <;> rfl

/-- Where no value is lacking, the entries of the first part are read before those of the
rest. -/
theorem Entries.append {a : Text} (hcomplete : Complete a)
    {left right : Except (EntryError E) (List (Entry Requirement Url Specifier))}
    (hleft : Entries readers a left) (hright : Entries readers b right)
    (hvalue : ∀ e, left = .error e → e.lacksValue = false) :
    ∃ whole, Entries readers (a ++ '\n' :: b) whole ∧ whole.toOption =
      left.toOption.bind fun entries => right.toOption.map (entries ++ ·) := by
  induction hleft with
  | @done s hparse =>
      rcases parseEntry_lines (b := b) readers hcomplete with ⟨_, hsame⟩ | ⟨result, _, hresult, _⟩
      · refine ⟨right, hright.congr hsame, ?_⟩
        cases right <;> rfl
      · rw [hparse] at hresult
        cases result <;> cases hresult
  | @fails s e hparse =>
      rcases parseEntry_lines (b := b) readers hcomplete with ⟨hnone, _⟩ |
        ⟨result, result', hresult, hresult', hagree⟩
      · cases hparse.symm.trans hnone
      · rw [hparse] at hresult
        cases hagree with
        | ok => cases hresult
        | lacks hlacks =>
            cases hresult
            rw [hvalue _ rfl] at hlacks
            cases hlacks
        | error => exact ⟨_, .fails hresult', rfl⟩
  | @next s rest entry result hparse hrest ih =>
      rcases parseEntry_lines (b := b) readers hcomplete with ⟨hnone, _⟩ |
        ⟨read, read', hread, hread', hagree⟩
      · cases hparse.symm.trans hnone
      · rw [hparse] at hread
        cases hagree with
        | lacks => cases hread
        | error => cases hread
        | @ok _ _ rest' hafter =>
            cases hread
            cases hafter with
            | within hwithin =>
                have hvalue' : ∀ e, result = .error e → e.lacksValue = false := by
                  rintro e rfl
                  exact hvalue e rfl
                obtain ⟨whole, hwhole, heq⟩ := ih hwithin.complete hvalue'
                rw [← hwithin.eq] at hwhole
                refine ⟨whole.map (entry :: ·), .next hread' hwhole, ?_⟩
                rw [toOption_map, toOption_map, heq]
                cases result <;> cases right <;> rfl
            | finished =>
                rw [hrest.unique entries_nil]
                refine ⟨right.map (entry :: ·), .next hread' hright, ?_⟩
                rw [toOption_map]
                cases right <;> rfl

variable (readers)

/-- Calling `parse_entry` again and again ends. -/
theorem exists_entries (s : Text) : ∃ result, Entries readers s result := by
  induction hlength : s.length using Nat.strong_induction_on generalizing s with
  | _ length ih =>
      subst hlength
      cases hparse : parseEntry readers s with
      | error e => exact ⟨_, .fails hparse⟩
      | ok read =>
          cases read with
          | none => exact ⟨_, .done hparse⟩
          | some read =>
              obtain ⟨entry, rest⟩ := read
              obtain ⟨result, hresult⟩ := ih _ (parseEntry_length readers hparse) _ rfl
              exact ⟨_, .next hparse hresult⟩

end Readers

section Concrete

/-- Values are read as they are; a backslash is no part of a requirement. -/
private def plainReaders : Readers Unit Text Text Text where
  unquote _ := none
  isFile _ := false
  parseRequirement text _ := if text.isEmpty || text.contains '\\' then .error () else .ok text
  empty _ := ⟨(), rfl⟩
  intoEditable := .ok
  parseUrl := .ok
  parseSpecifier := .ok

end Concrete

end Uv.Requirements
