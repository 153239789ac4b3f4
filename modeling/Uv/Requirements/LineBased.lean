import Uv.Requirements.Entries

/-!
# Requirements files by lines

Where the first part of a text does not end in a line that is continued, and no option at its
end is without its value, every part of the parser reads the same whether other lines follow
or not.
-/

set_option linter.unusedSectionVars false

namespace Uv.Requirements

open Uv.Core Uv.Pep508
open Uv.Pep440.VersionSpecifier (isWhitespace)

variable {E Requirement Url Specifier α β : Type} {b t rest rest' : Text}

/-- The last line is not continued, whichever line ending follows. -/
structure Complete (t : Text) : Prop where
  backslash : ¬ ['\\'] <:+ t
  carriageReturn : ¬ ['\\', '\r'] <:+ t

theorem Complete.suffix (hcomplete : Complete t) (hsuffix : rest <:+ t) : Complete rest :=
  ⟨fun hback => hcomplete.backslash (hback.trans hsuffix),
    fun hreturn => hcomplete.carriageReturn (hreturn.trans hsuffix)⟩

/-- Inside the first part: the same is left, and the other lines after it. -/
structure Within (b rest rest' : Text) : Prop where
  complete : Complete rest
  eq : rest' = rest ++ '\n' :: b

/-- Inside the first part, or the line feed after it has been read. -/
inductive After (b : Text) : Text → Text → Prop
  | within {rest rest' : Text} (hwithin : Within b rest rest') : After b rest rest'
  | finished : After b [] b

/-! ## Scanning -/

theorem dropWhile_line {condition : Char → Bool} (hline : condition '\n' = false) (t : Text) :
    (t ++ '\n' :: b).dropWhile condition = t.dropWhile condition ++ '\n' :: b := by
  induction t with
  | nil => simp [hline]
  | cons c t ih =>
      rw [List.cons_append, List.dropWhile_cons, List.dropWhile_cons]
      split
      · exact ih
      · rfl

theorem takeWhile_line {condition : Char → Bool} (hline : condition '\n' = false) (t : Text) :
    (t ++ '\n' :: b).takeWhile condition = t.takeWhile condition := by
  induction t with
  | nil => simp [hline]
  | cons c t ih =>
      rw [List.cons_append, List.takeWhile_cons, List.takeWhile_cons, ih]

theorem eatComment_line (t : Text) :
    eatComment (t ++ '\n' :: b) = eatComment t ++ '\n' :: b :=
  dropWhile_line (by decide) t

/-- A word without line feeds is inside the first part. -/
theorem prefix_line {word : Text} (hword : '\n' ∉ word) :
    word <+: t ++ '\n' :: b ↔ word <+: t := by
  constructor
  · intro hstart
    obtain ⟨more, hmore⟩ := hstart
    rcases List.append_eq_append_iff.mp hmore with ⟨inside, hinside, _⟩ | ⟨beyond, hbeyond, hrest⟩
    · rw [hinside]
      exact List.prefix_append _ _
    · cases beyond with
      | nil =>
          rw [List.append_nil] at hbeyond
          rw [hbeyond]
      | cons c beyond =>
          have hc : c = '\n' := (List.cons.inj hrest).1.symm
          rw [hbeyond, hc] at hword
          exact (hword (by simp)).elim
  · exact fun hstart => hstart.trans (List.prefix_append _ _)

theorem eatIf_line {word : String} (hword : '\n' ∉ word.toList) :
    eatIf word (t ++ '\n' :: b) = (eatIf word t).map (· ++ '\n' :: b) := by
  simp only [eatIf, prefix_line hword]
  split_ifs with hstart
  · rw [Option.map_some, List.drop_append_of_le_length hstart.length_le]
  · rfl

theorem eatWrappableWhitespace_line (hcomplete : Complete t) :
    eatWrappableWhitespace (t ++ '\n' :: b) = eatWrappableWhitespace t ++ '\n' :: b := by
  fun_induction eatWrappableWhitespace t with
  | case1 rest ih => exact ih (hcomplete.suffix (List.suffix_cons _ _))
  | case2 rest ih => exact ih (hcomplete.suffix (List.suffix_cons _ _))
  | case3 rest ih => exact ih (hcomplete.suffix (List.suffix_append ['\\', '\n'] _))
  | case4 rest ih => exact ih (hcomplete.suffix (List.suffix_append ['\\', '\r', '\n'] _))
  | case5 rest hne ih =>
      have hrest := hcomplete.suffix (List.suffix_append ['\\', '\r'] rest)
      cases rest with
      | nil => exact (hcomplete.carriageReturn List.suffix_rfl).elim
      | cons c rest =>
          rw [List.cons_append, List.cons_append, List.cons_append, eatWrappableWhitespace]
          · exact ih hrest
          · intro other heq
            exact hne rest (by rw [(List.cons.inj heq).1])
  | case6 s hspace htab hlineFeed hboth hreturn =>
      cases s with
      | nil => rfl
      | cons c s =>
          have hinside : ∀ d other, c :: (s ++ '\n' :: b) = '\\' :: d :: other →
              ∃ s', c :: s = '\\' :: d :: s' := by
            intro d other heq
            obtain ⟨rfl, htail⟩ := List.cons.inj heq
            cases s with
            | nil => exact (hcomplete.backslash List.suffix_rfl).elim
            | cons d' s =>
                obtain ⟨rfl, _⟩ := List.cons.inj htail
                exact ⟨s, rfl⟩
          rw [List.cons_append, eatWrappableWhitespace]
          · intro other heq
            exact hspace s (by rw [(List.cons.inj heq).1])
          · intro other heq
            exact htab s (by rw [(List.cons.inj heq).1])
          · intro other heq
            obtain ⟨s', hs⟩ := hinside _ _ heq
            exact hlineFeed s' hs
          · intro other heq
            obtain ⟨s', hs⟩ := hinside _ _ heq
            exact hreturn s' hs
          · intro other heq
            obtain ⟨s', hs⟩ := hinside _ _ heq
            exact hreturn s' hs

theorem eatLineEnd_line (hcomplete : Complete t) {rest : Text} (heat : eatLineEnd t = some rest) :
    ∃ rest', eatLineEnd (t ++ '\n' :: b) = some rest' ∧ After b rest rest' := by
  revert heat
  fun_cases eatLineEnd t with
  | case1 line =>
      rintro ⟨⟩
      exact ⟨_, rfl, .within ⟨hcomplete.suffix (List.suffix_cons _ _), rfl⟩⟩
  | case2 line =>
      rintro ⟨⟩
      exact ⟨_, rfl, .within ⟨hcomplete.suffix (List.suffix_append ['\r', '\n'] _), rfl⟩⟩
  | case3 line =>
      rename_i hne
      rintro ⟨⟩
      cases rest with
      | nil => exact ⟨b, rfl, .finished⟩
      | cons c line =>
          refine ⟨_, ?_, .within ⟨hcomplete.suffix (List.suffix_cons _ _), rfl⟩⟩
          rw [List.cons_append, List.cons_append, eatLineEnd]
          intro other heq
          exact hne line (by rw [(List.cons.inj heq).1])
  | case4 =>
      intro heq
      cases heq

theorem eatLineEnd_cons_none {c : Char} (hlineFeed : c ≠ '\n') (hreturn : c ≠ '\r') (s : Text) :
    eatLineEnd (c :: s) = none := by
  rw [eatLineEnd]
  · exact fun _ heq => hlineFeed (List.cons.inj heq).1
  · exact fun _ heq => hreturn (List.cons.inj heq).1
  · exact fun _ heq => hreturn (List.cons.inj heq).1

theorem eatLineEnd_line_none (hne : t ≠ []) (heat : eatLineEnd t = none) :
    eatLineEnd (t ++ '\n' :: b) = none := by
  cases t with
  | nil => exact (hne rfl).elim
  | cons c t =>
      have hlineFeed : c ≠ '\n' := by
        rintro rfl
        cases heat
      have hreturn : c ≠ '\r' := by
        rintro rfl
        rcases eatTrailingLine_of_terminal (E := Unit) (s := '\r' :: t) rfl with
          ⟨_, hcomment, _⟩ | ⟨_, hline, _⟩
        · cases hcomment
        · rw [hline] at heat
          cases heat
      rw [List.cons_append]
      exact eatLineEnd_cons_none hlineFeed hreturn _

theorem head?_line (hne : t ≠ []) : (t ++ '\n' :: b).head? = t.head? := by
  cases t with
  | nil => exact (hne rfl).elim
  | cons c t => rfl

/-- Where the first part has nothing but trivia left, the trivia of the rest are skipped. -/
theorem skipTrivia_lines (hcomplete : Complete t) :
    ∃ rest, (skipTrivia t : Except (EntryError E) Text) = .ok rest ∧ Complete rest ∧
      (skipTrivia (t ++ '\n' :: b) : Except (EntryError E) Text) =
        if rest = [] then skipTrivia b else .ok (rest ++ '\n' :: b) := by
  induction hlength : t.length using Nat.strong_induction_on generalizing t with
  | _ length ih =>
      subst hlength
      have hblank := eatWrappableWhitespace_line (b := b) hcomplete
      have hcomplete₁ := hcomplete.suffix (suffix_eatWrappableWhitespace t)
      have hle := length_eatWrappableWhitespace t
      cases hterminal : (eatWrappableWhitespace t).head?.any isTerminal with
      | false =>
          refine ⟨_, skipTrivia_of_not hterminal, hcomplete₁, ?_⟩
          split_ifs with hnil
          · rw [hnil] at hblank
            exact skipTrivia_line (by rw [hblank]; rfl)
          · rw [skipTrivia_of_not, hblank]
            rw [hblank, head?_line hnil]
            exact hterminal
      | true =>
          rcases eatTrailingLine_of_terminal (E := E) hterminal with ⟨rest, hcomment, _⟩ |
            ⟨rest, hline, _⟩
          · rw [hcomment] at hcomplete₁ hle
            rw [hcomment, List.cons_append] at hblank
            rw [skipTrivia_comment hcomment, skipTrivia_comment hblank, eatComment_line]
            have hcomment : eatComment rest <:+ rest := List.dropWhile_suffix _
            exact ih _ (by have := hcomment.length_le; simp at hle; omega)
              (hcomplete₁.suffix (hcomment.trans (List.suffix_cons _ _))) rfl
          · obtain ⟨rest', hline', hafter⟩ := eatLineEnd_line (b := b) hcomplete₁ hline
            rw [← hblank] at hline'
            rw [skipTrivia_line hline, skipTrivia_line hline']
            cases hafter with
            | within hwithin =>
                rw [hwithin.eq]
                exact ih _ ((length_eatLineEnd hline).trans_le hle) hwithin.complete rfl
            | finished =>
                exact ⟨[], skipTrivia_of_not rfl, hcomplete.suffix List.nil_suffix, rfl⟩

/-- The text of a requirement ends inside the first part. -/
theorem requirementLoop_lines (hcomplete : Complete t) (taken : Text) :
    ∃ requirement hasHashes rest rest',
      requirementLoop taken t = (requirement, hasHashes, rest) ∧
        requirementLoop taken (t ++ '\n' :: b) = (requirement, hasHashes, rest') ∧
          After b rest rest' ∧ (hasHashes = true → Within b rest rest') := by
  induction hlength : t.length using Nat.strong_induction_on generalizing t taken with
  | _ length ih =>
      subst hlength
      have hblank := eatWrappableWhitespace_line (b := b) hcomplete
      have hsuffix := suffix_eatWrappableWhitespace t
      have hcomplete₁ := hcomplete.suffix hsuffix
      by_cases hnil : t = []
      · subst hnil
        refine ⟨taken, false, [], b, ?_, ?_, .finished, nofun⟩
        · rw [requirementLoop.eq_def]
          rfl
        · rw [requirementLoop.eq_def]
          rfl
      rw [requirementLoop.eq_def taken t, requirementLoop.eq_def taken (t ++ '\n' :: b)]
      cases hline : eatLineEnd t with
      | some rest =>
          obtain ⟨rest', hline', hafter⟩ := eatLineEnd_line (b := b) hcomplete hline
          rw [hline']
          exact ⟨taken, false, rest, rest', rfl, rfl, hafter, nofun⟩
      | none =>
          rw [eatLineEnd_line_none hnil hline]
          dsimp only
          have hiff : (eatWrappableWhitespace (t ++ '\n' :: b)).length < (t ++ '\n' :: b).length ↔
              (eatWrappableWhitespace t).length < t.length := by
            rw [hblank, List.length_append, List.length_append]
            omega
          by_cases hless : (eatWrappableWhitespace t).length < t.length
          · rw [if_pos hless, if_pos (hiff.mpr hless), hblank]
            by_cases hdashes : "--".toList <+: eatWrappableWhitespace t
            · rw [if_pos hdashes, if_pos ((prefix_line (by decide)).mpr hdashes)]
              exact ⟨taken, true, _, _, rfl, rfl, .within ⟨hcomplete₁, rfl⟩,
                fun _ => ⟨hcomplete₁, rfl⟩⟩
            · rw [if_neg hdashes, if_neg (mt (prefix_line (by decide)).mp hdashes)]
              have htake : (t ++ '\n' :: b).take ((t ++ '\n' :: b).length -
                  (eatWrappableWhitespace t ++ '\n' :: b).length) =
                    t.take (t.length - (eatWrappableWhitespace t).length) := by
                rw [List.length_append, List.length_append, Nat.add_sub_add_right,
                  List.take_append_of_le_length (Nat.sub_le _ _)]
              rw [htake]
              by_cases hhash : (eatWrappableWhitespace t).head? = some '#'
              · obtain ⟨comment, hcomment⟩ := List.head?_eq_some_iff.mp hhash
                have hrest : eatComment comment <:+ '#' :: comment :=
                  (List.dropWhile_suffix _).trans (List.suffix_cons _ _)
                rw [hcomment] at hcomplete₁ ⊢
                have hwithin : Within b (eatComment comment) (eatComment comment ++ '\n' :: b) :=
                  ⟨hcomplete₁.suffix hrest, rfl⟩
                refine ⟨taken, false, eatComment comment, _, rfl, ?_, .within hwithin,
                  fun _ => hwithin⟩
                rw [← eatComment_line]
                rfl
              · have hhash' : (eatWrappableWhitespace t ++ '\n' :: b).head? ≠ some '#' := by
                  by_cases hempty : eatWrappableWhitespace t = []
                  · rw [hempty]
                    simp
                  · rwa [head?_line hempty]
                rw [if_neg hhash, if_neg hhash']
                exact ih _ hless hcomplete₁ _ rfl
          · rw [if_neg hless, if_neg (mt hiff.mp hless)]
            cases t with
            | nil => exact (hnil rfl).elim
            | cons c line =>
                exact ih _ (Nat.lt_succ_self _) (hcomplete.suffix (List.suffix_cons _ _)) _ rfl

/-! ## Values and hashes -/

/-- The text ends where the value of an option should be. -/
def EntryError.lacksValue : EntryError E → Bool
  | .expectedValue [] => true
  | .noArgument _ false [] => true
  | .pep508 [] [] _ => true
  | _ => false

/-- The same is read and what is left is related, or both fail; nothing is said where a value
is lacking. -/
inductive Agree (R : Text → Text → Prop) :
    Except (EntryError E) (α × Text) → Except (EntryError E) (α × Text) → Prop
  | ok {value : α} {rest rest' : Text} (hrest : R rest rest') :
      Agree R (.ok (value, rest)) (.ok (value, rest'))
  | lacks {e : EntryError E} {result : Except (EntryError E) (α × Text)}
      (hlacks : e.lacksValue = true) : Agree R (.error e) result
  | error {e e' : EntryError E} : Agree R (.error e) (.error e')

namespace Agree

variable {R R' : Text → Text → Prop} {left right : Except (EntryError E) (α × Text)}

theorem bind {next next' : α × Text → Except (EntryError E) (β × Text)}
    (hagree : Agree R left right)
    (hnext : ∀ value rest rest', R rest rest' → Agree R' (next (value, rest)) (next' (value, rest'))) :
    Agree R' (left >>= next) (right >>= next') := by
  cases hagree with
  | ok hrest => exact hnext _ _ _ hrest
  | lacks hlacks => exact .lacks hlacks
  | error => exact .error

/-- A step that does not read. -/
theorem step {γ : Type} (result : Except (EntryError E) γ)
    {next next' : γ → Except (EntryError E) (β × Text)}
    (hnext : ∀ value, Agree R (next value) (next' value)) :
    Agree R (result >>= next) (result >>= next') := by
  cases result with
  | error e => exact .error
  | ok value => exact hnext value

end Agree

theorem readArgument_lines {condition : Char → Bool} (hline : condition '\n' = false)
    (option : String) (explicit : Bool) (hcomplete : Complete t) :
    Agree (E := E) (Within b) (readArgument option explicit condition t)
      (readArgument option explicit condition (t ++ '\n' :: b)) := by
  rw [readArgument, readArgument, takeWhile_line hline, dropWhile_line hline]
  split_ifs
  · exact .error
  · exact .ok ⟨hcomplete.suffix (List.dropWhile_suffix _), rfl⟩

/-- What is read after whitespace, where something is left. -/
theorem dropWhitespace_line (hne : t.dropWhile isWhitespace ≠ []) :
    (t ++ '\n' :: b).dropWhile isWhitespace = t.dropWhile isWhitespace ++ '\n' :: b := by
  rw [List.dropWhile_append, if_neg (by simpa using hne)]

/-- A value after an equals sign or whitespace; the whitespace goes over the end of the first
part only where nothing is left of it. -/
theorem separator_lines {R : Text → Text → Prop}
    {read explicit blank : Text → Except (EntryError E) (α × Text)}
    (hnil : read [] = .error (.expectedValue []))
    (hequals : ∀ rest, read ('=' :: rest) = explicit rest)
    (hother : ∀ c rest, c ≠ '=' → read (c :: rest) =
      if isWhitespace c then blank ((c :: rest).dropWhile isWhitespace)
      else .error (.expectedValue (c :: rest)))
    (hlacks : ∃ e, blank [] = .error e ∧ e.lacksValue = true)
    (hexplicit : ∀ t, Complete t → Agree R (explicit t) (explicit (t ++ '\n' :: b)))
    (hblank : ∀ t, Complete t → Agree R (blank t) (blank (t ++ '\n' :: b)))
    (hcomplete : Complete t) : Agree R (read t) (read (t ++ '\n' :: b)) := by
  cases t with
  | nil =>
      rw [hnil]
      exact .lacks rfl
  | cons c line =>
      by_cases hc : c = '='
      · rw [hc, List.cons_append, hequals, hequals]
        exact hexplicit line (hcomplete.suffix (List.suffix_cons _ _))
      · rw [List.cons_append, hother c _ hc, hother c _ hc]
        split_ifs
        · by_cases hleft : (c :: line).dropWhile isWhitespace = []
          · obtain ⟨e, he, hlacks⟩ := hlacks
            rw [hleft, he]
            exact .lacks hlacks
          · have hrest : (c :: (line ++ '\n' :: b)).dropWhile isWhitespace = _ :=
              dropWhitespace_line hleft
            rw [hrest]
            exact hblank _ (hcomplete.suffix (List.dropWhile_suffix _))
        · exact .error

theorem parseValue_lines {condition : Char → Bool} (hline : condition '\n' = false)
    (option : String) (hcomplete : Complete t) :
    Agree (E := E) (Within b) (parseValue option condition t)
      (parseValue option condition (t ++ '\n' :: b)) := by
  refine separator_lines rfl (fun _ => rfl) ?_ ⟨.noArgument option false [], rfl, rfl⟩
    (fun _ => readArgument_lines hline option true)
    (fun _ => readArgument_lines hline option false) hcomplete
  intro c rest hc
  rw [parseValue]
  · rfl
  · exact fun _ heq => hc (List.cons.inj heq).1

theorem eatHashes_suffix (s : Text) : eatHashes s <:+ s := by
  fun_induction eatHashes s with
  | case1 rest ih => exact ih.trans (List.suffix_append "--hash".toList _)
  | case2 s => exact List.suffix_rfl

theorem eatHashes_line (t : Text) : eatHashes (t ++ '\n' :: b) = eatHashes t ++ '\n' :: b := by
  fun_induction eatHashes t with
  | case1 rest ih => exact ih
  | case2 t hne =>
      rw [eatHashes]
      intro rest heq
      have hstart : "--hash".toList <+: t ++ '\n' :: b := ⟨rest, heq.symm⟩
      obtain ⟨more, hmore⟩ := (prefix_line (by decide)).mp hstart
      exact hne more hmore.symm

theorem hashesLoop_lines (hcomplete : Complete t) (hashes : List Text) :
    Agree (E := E) (Within b) (hashesLoop hashes t) (hashesLoop hashes (t ++ '\n' :: b)) := by
  induction hlength : t.length using Nat.strong_induction_on generalizing t hashes with
  | _ length ih =>
      subst hlength
      have hcomplete₁ := hcomplete.suffix (suffix_eatWrappableWhitespace t)
      have hle := length_eatWrappableWhitespace t
      rw [hashesLoop_eq, hashesLoop_eq, eatWrappableWhitespace_line hcomplete,
        eatIf_line (by decide)]
      cases hhash : eatIf "--hash" (eatWrappableWhitespace t) with
      | none => exact .ok ⟨hcomplete₁, rfl⟩
      | some rest =>
          have hword := suffix_eatIf hhash
          rw [hword] at hcomplete₁ hle
          have hrest := hcomplete₁.suffix (List.suffix_append _ rest)
          have hvalue : Agree (E := E) (Within b) (parseValue "--hash" (!isWhitespace ·) rest)
              (parseValue "--hash" (!isWhitespace ·) (rest ++ '\n' :: b)) :=
            parseValue_lines (by decide) "--hash" hrest
          rw [Option.map_some]
          dsimp only
          generalize hleft : (parseValue "--hash" (!isWhitespace ·) rest :
            Except (EntryError E) _) = left at hvalue ⊢
          generalize (parseValue "--hash" (!isWhitespace ·) (rest ++ '\n' :: b) :
            Except (EntryError E) _) = right at hvalue ⊢
          cases hvalue with
          | lacks hlacks => exact .lacks hlacks
          | error => exact .error
          | @ok hash after after' hwithin =>
              have hafter := (suffix_parseValue hleft).length_le
              have hlonger : rest.length < ("--hash".toList ++ rest).length := by
                rw [List.length_append]
                exact Nat.lt_add_of_pos_left (by decide)
              rw [hwithin.eq]
              exact ih _ ((hafter.trans_lt hlonger).trans_le hle) hwithin.complete _ rfl

theorem parseHashes_lines (hcomplete : Complete t) :
    Agree (E := E) (Within b) (parseHashes t) (parseHashes (t ++ '\n' :: b)) := by
  have hiff : (eatHashes (t ++ '\n' :: b)).length = (t ++ '\n' :: b).length ↔
      (eatHashes t).length = t.length := by
    rw [eatHashes_line, List.length_append, List.length_append]
    omega
  rw [parseHashes, parseHashes]
  simp only [hiff]
  split_ifs with hnone
  · exact .error
  · rw [eatHashes_line]
    apply Agree.bind (parseValue_lines (by decide) _ (hcomplete.suffix (eatHashes_suffix t)))
    intro hash rest rest' hwithin
    rw [hwithin.eq]
    exact hashesLoop_lines hwithin.complete [hash]

/-! ## Entries -/

section Readers

variable (readers : Readers E Requirement Url Specifier)

theorem parseRequirementAndHashes_lines (editable : Bool) (hcomplete : Complete t) :
    Agree (After b) (parseRequirementAndHashes readers editable t)
      (parseRequirementAndHashes readers editable (t ++ '\n' :: b)) := by
  obtain ⟨requirement, hasHashes, rest, rest', hloop, hloop', hafter, hwithin⟩ :=
    requirementLoop_lines (b := b) hcomplete []
  rw [parseRequirementAndHashes, parseRequirementAndHashes, hloop, hloop']
  dsimp only
  by_cases hfile : (".txt".toList <:+ requirement ∨ ".in".toList <:+ requirement) ∧
      readers.isFile requirement = true
  · rw [if_pos hfile, if_pos hfile]
    exact .error
  · rw [if_neg hfile, if_neg hfile]
    cases readers.parseRequirement requirement editable with
    | error e => exact .error
    | ok parsed =>
        cases hasHashes with
        | false => exact .ok hafter
        | true =>
            obtain ⟨hcomplete', rfl⟩ := hwithin rfl
            apply Agree.bind (parseHashes_lines hcomplete')
            intro hashes rest rest' hwithin'
            exact .ok (.within hwithin')

/-- Without a requirement, the parser fails. -/
theorem parseRequirementAndHashes_nil (editable : Bool) : ∃ e : EntryError E,
    parseRequirementAndHashes readers editable [] = .error e ∧ e.lacksValue = true := by
  obtain ⟨e, he⟩ := readers.empty editable
  refine ⟨.pep508 [] [] e, ?_, rfl⟩
  have hloop : requirementLoop [] [] = ([], false, []) := by
    rw [requirementLoop.eq_def]
    rfl
  rw [parseRequirementAndHashes, hloop]
  dsimp only
  rw [he, if_neg (by simp)]
  rfl

theorem parseUnquoted_lines (option : String) (hcomplete : Complete t) :
    Agree (Within b) (parseUnquoted readers option t)
      (parseUnquoted readers option (t ++ '\n' :: b)) := by
  apply Agree.bind (parseValue_lines (by decide) option hcomplete)
  intro given rest rest' hwithin
  exact .ok hwithin

/-- A reader of what follows an option reads by lines. -/
def ReadsLines (b : Text) (read : EntryReader E Requirement Url Specifier) : Prop :=
  ∀ t, Complete t → Agree (After b) (read t) (read (t ++ '\n' :: b))

theorem parseFile_lines (option : String) (entry : Text → Entry Requirement Url Specifier) :
    ReadsLines b (parseFile readers option entry) := by
  intro t hcomplete
  apply Agree.bind (parseUnquoted_lines readers option hcomplete)
  intro filename rest rest' hwithin
  exact .ok (.within hwithin)

theorem parseUrlOption_lines (option : String) (entry : Url → Entry Requirement Url Specifier) :
    ReadsLines b (parseUrlOption readers option entry) := by
  intro t hcomplete
  apply Agree.bind (parseUnquoted_lines readers option hcomplete)
  intro given rest rest' hwithin
  exact Agree.step _ fun url => .ok (.within hwithin)

theorem parseSpecifierOption_lines (option : String)
    (entry : Specifier → Entry Requirement Url Specifier) :
    ReadsLines b (parseSpecifierOption readers option entry) := by
  intro t hcomplete
  apply Agree.bind (parseUnquoted_lines readers option hcomplete)
  intro given rest rest' hwithin
  exact Agree.step _ fun specifier => .ok (.within hwithin)

theorem parseRequirementEntry_lines : ReadsLines b (parseRequirementEntry readers) := by
  intro t hcomplete
  apply Agree.bind (parseRequirementAndHashes_lines readers false hcomplete)
  intro read rest rest' hafter
  exact .ok hafter

theorem parseEditable_lines : ReadsLines b (parseEditable readers) := by
  have hread : ∀ t : Text, Complete t → Agree (After b) (readEditable readers t)
      (readEditable readers (t ++ '\n' :: b)) := by
    intro t hcomplete
    apply Agree.bind (parseRequirementAndHashes_lines readers true hcomplete)
    intro read rest rest' hafter
    exact Agree.step _ fun requirement => .ok hafter
  obtain ⟨e, hnil, hlacks⟩ := parseRequirementAndHashes_nil readers true
  have hempty : readEditable readers [] = .error e := by
    rw [readEditable, hnil]
    rfl
  intro t hcomplete
  refine separator_lines rfl (fun _ => rfl) ?_ ⟨e, hempty, hlacks⟩ hread hread hcomplete
  intro c rest hc
  rw [parseEditable]
  · rfl
  · exact fun _ heq => hc (List.cons.inj heq).1

theorem takeTerminal_lines (entry : Entry Requirement Url Specifier) :
    ReadsLines (E := E) b fun s => .ok (entry, s.dropWhile (!isTerminal ·)) := by
  intro t hcomplete
  dsimp only
  rw [dropWhile_line (by decide)]
  exact .ok (.within ⟨hcomplete.suffix (List.dropWhile_suffix _), rfl⟩)

/-- The names have no line feeds, and what follows them is read by lines. -/
structure OptionLines (b : Text)
    (option : List String × EntryReader E Requirement Url Specifier) : Prop where
  names : ∀ name ∈ option.1, name.toList ≠ [] ∧ '\n' ∉ name.toList
  read : ReadsLines b option.2

theorem optionLines {names : List String} {read : EntryReader E Requirement Url Specifier}
    (hnames : ∀ name ∈ names, name.toList ≠ [] ∧ '\n' ∉ name.toList)
    (hread : ReadsLines b read) : OptionLines b (names, read) :=
  ⟨hnames, hread⟩

theorem options_lines : ∀ option ∈ options readers, OptionLines b option := by
  have hnoIndex : ReadsLines (E := E) b fun s : Text =>
      .ok ((.noIndex : Entry Requirement Url Specifier), s) :=
    fun t hcomplete => .ok (.within ⟨hcomplete, rfl⟩)
  simp only [options, List.forall_mem_cons]
  exact ⟨optionLines (by decide) (parseFile_lines readers _ _),
    optionLines (by decide) (parseFile_lines readers _ _),
    optionLines (by decide) (parseEditable_lines readers),
    optionLines (by decide) (parseUrlOption_lines readers _ _),
    optionLines (by decide) (parseUrlOption_lines readers _ _),
    optionLines (by decide) hnoIndex,
    optionLines (by decide) (parseUrlOption_lines readers _ _),
    optionLines (by decide) (parseSpecifierOption_lines readers _ _),
    optionLines (by decide) (parseSpecifierOption_lines readers _ _), nofun⟩

theorem unsupportedOptions_lines :
    ∀ option ∈ (unsupportedOptions : List (_ × EntryReader E Requirement Url Specifier)),
      OptionLines b option := by
  intro option hoption
  obtain ⟨unsupported, _, rfl⟩ := List.mem_map.mp hoption
  apply optionLines _ (takeTerminal_lines _)
  cases unsupported <;> decide

/-- No name is read in an empty text. -/
theorem readOption_nil {options : List (List String × EntryReader E Requirement Url Specifier)}
    (hoptions : ∀ option ∈ options, OptionLines b option) : readOption options [] = none := by
  rw [readOption, List.findSome?_eq_none_iff]
  intro option hoption
  rw [Option.map_eq_none_iff, List.findSome?_eq_none_iff]
  intro name hname
  rw [eatIf, if_neg]
  intro hprefix
  exact ((hoptions option hoption).names name hname).1 (List.prefix_nil.mp hprefix)

theorem eatAny_line {names : List String} (hnames : ∀ name ∈ names, '\n' ∉ name.toList) :
    names.findSome? (fun name => eatIf name (t ++ '\n' :: b)) =
      (names.findSome? fun name => eatIf name t).map (· ++ '\n' :: b) := by
  induction names with
  | nil => rfl
  | cons name names ih =>
      rw [List.findSome?_cons, List.findSome?_cons, eatIf_line (hnames name List.mem_cons_self),
        ih fun name hmem => hnames name (List.mem_cons_of_mem _ hmem)]
      cases eatIf name t <;> rfl

/-- The same option is found. -/
theorem readOption_lines {options : List (List String × EntryReader E Requirement Url Specifier)}
    (hoptions : ∀ option ∈ options, OptionLines b option) (hcomplete : Complete t) :
    (readOption options t = none ∧ readOption options (t ++ '\n' :: b) = none) ∨
      ∃ result result', readOption options t = some result ∧
        readOption options (t ++ '\n' :: b) = some result' ∧ Agree (After b) result result' := by
  induction options with
  | nil => exact Or.inl ⟨rfl, rfl⟩
  | cons option options ih =>
      obtain ⟨names, read⟩ := option
      have hoption := hoptions (names, read) List.mem_cons_self
      have hnames := eatAny_line (t := t) (b := b) fun name hmem =>
        (hoption.names name hmem).2
      rw [readOption, readOption, List.findSome?_cons, List.findSome?_cons]
      dsimp only
      rw [hnames]
      cases hname : names.findSome? fun name => eatIf name t with
      | none => exact ih fun option hmem => hoptions option (List.mem_cons_of_mem _ hmem)
      | some rest =>
          obtain ⟨name, hmem, heat⟩ := List.exists_of_findSome?_eq_some hname
          have hword := suffix_eatIf heat
          rw [hword] at hcomplete
          exact Or.inr ⟨_, _, rfl, rfl,
            hoption.read rest (hcomplete.suffix (List.suffix_append _ _))⟩

theorem readEntry_nil : readEntry readers [] = .ok none := by
  rw [readEntry, readOption_nil (b := []) (options_lines readers)]
  rfl

/-- An entry at the start of the first part. -/
theorem readEntry_lines (hcomplete : Complete t) (hne : t ≠ []) :
    ∃ result result', readEntry readers t = result.map some ∧
      readEntry readers (t ++ '\n' :: b) = result'.map some ∧ Agree (After b) result result' := by
  rw [readEntry, readEntry, head?_line hne]
  rcases readOption_lines (b := b) (options_lines readers) hcomplete with ⟨hnone, hnone'⟩ |
    ⟨result, result', hsome, hsome', hagree⟩
  · rw [hnone, hnone']
    have hempty : t.isEmpty = false := by simpa using hne
    have hempty' : (t ++ '\n' :: b).isEmpty = false := by simp
    dsimp only
    rw [hempty, hempty']
    by_cases hstart : t.head?.any startsRequirement = true
    · rw [if_pos hstart, if_pos hstart]
      exact ⟨_, _, rfl, rfl, parseRequirementEntry_lines readers t hcomplete⟩
    · rw [if_neg hstart, if_neg hstart, if_neg Bool.false_ne_true, if_neg Bool.false_ne_true]
      rcases readOption_lines (b := b) (unsupportedOptions_lines (E := E)) hcomplete with
        ⟨hnone, hnone'⟩ | ⟨result, result', hsome, hsome', hagree⟩
      · rw [hnone, hnone']
        exact ⟨.error (.unexpected t), .error (.unexpected _), rfl, rfl, .error⟩
      · rw [hsome, hsome']
        exact ⟨result, result', rfl, rfl, hagree⟩
  · rw [hsome, hsome']
    exact ⟨result, result', rfl, rfl, hagree⟩

/-- Where the first part has no entry left, the next one is the first of the rest. -/
theorem parseEntry_lines (hcomplete : Complete t) :
    (parseEntry readers t = .ok none ∧
        parseEntry readers (t ++ '\n' :: b) = parseEntry readers b) ∨
      ∃ result result', parseEntry readers t = result.map some ∧
        parseEntry readers (t ++ '\n' :: b) = result'.map some ∧
          Agree (After b) result result' := by
  obtain ⟨rest, hskip, hcomplete', hskip'⟩ := skipTrivia_lines (E := E) (b := b) hcomplete
  by_cases hnil : rest = []
  · left
    rw [if_pos hnil] at hskip'
    rw [parseEntry, parseEntry, parseEntry, hskip, hskip', hnil]
    exact ⟨readEntry_nil readers, rfl⟩
  · right
    rw [if_neg hnil] at hskip'
    rw [parseEntry, parseEntry, hskip, hskip']
    exact readEntry_lines readers hcomplete' hnil

end Readers

end Uv.Requirements
