import Mathlib

/-!
# Backtracking regular expressions with named groups

`Regex.matchK` is the usual backtracking matcher in continuation-passing style:
alternatives are tried from left to right, repetition is greedy, and the first
way to satisfy the continuation wins.  `Derives` is the declarative reading of
the same expressions; `isSome_matchK` says that the matcher succeeds exactly
when a derivation exists.

What a group has matched is recorded in a state of the caller's choosing.
-/

namespace Uv.Core

/-- Regular expressions over `α` that record their groups in a `σ`. -/
inductive Regex (α σ : Type) where
  | empty
  | symbol (accepts : α → Bool)
  | seq (first second : Regex α σ)
  | alt (first second : Regex α σ)
  | star (body : Regex α σ)
  | capture (record : σ → List α → σ) (body : Regex α σ)

namespace Regex

variable {α σ β : Type}

/-- Greedy `r?`. -/
def opt (body : Regex α σ) : Regex α σ := .alt body .empty

/-- Greedy `r+`. -/
def plus (body : Regex α σ) : Regex α σ := .seq body (.star body)

/-- One symbol after the other. -/
def literal (accepts : α → α → Bool) : List α → Regex α σ
  | [] => .empty
  | head :: rest => .seq (.symbol (accepts head)) (literal accepts rest)

/-- `r₁|r₂|…`, the first one preferred. -/
def alternatives : List (Regex α σ) → Regex α σ
  | [] => .symbol fun _ => false
  | [body] => body
  | body :: rest => .alt body (alternatives rest)

/-- What remains to be matched after a point: the remaining input and the
groups recorded so far decide the result. -/
abbrev Continuation (α σ β : Type) := List α → σ → Option β

/-- Greedy repetition of `step`; a round has to consume something. -/
def iterate (step : Continuation α σ β → Continuation α σ β)
    (next : Continuation α σ β) : ℕ → List α → σ → Option β
  | 0, input, groups => next input groups
  | fuel + 1, input, groups =>
      (step (fun rest groups =>
        if rest.length < input.length then iterate step next fuel rest groups
        else none) input groups).or (next input groups)

/-- The first way, in backtracking order, to match a prefix of the input so that
the continuation accepts the rest. -/
def matchK : Regex α σ → Continuation α σ β → List α → σ → Option β
  | .empty, next, input, groups => next input groups
  | .symbol _, _, [], _ => none
  | .symbol accepts, next, head :: rest, groups =>
      if accepts head then next rest groups else none
  | .seq first second, next, input, groups =>
      first.matchK (second.matchK next) input groups
  | .alt first second, next, input, groups =>
      (first.matchK next input groups).or (second.matchK next input groups)
  | .star body, next, input, groups =>
      iterate body.matchK next input.length input groups
  | .capture record body, next, input, groups =>
      body.matchK (fun rest groups =>
        next rest (record groups (input.take (input.length - rest.length))))
        input groups

/-- The groups of the first complete match. -/
def firstMatch (body : Regex α σ) (start : σ) (input : List α) : Option σ :=
  body.matchK (fun rest groups => if rest.isEmpty then some groups else none)
    input start

/-! ## The declarative reading -/

/-- `body.Derives input groups rest groups'`: `body` matches the part of
`input` before `rest` and turns `groups` into `groups'`. -/
inductive Derives : Regex α σ → List α → σ → List α → σ → Prop where
  | empty {input groups} : Derives .empty input groups input groups
  | symbol {accepts symbol rest groups} (haccepts : accepts symbol = true) :
      Derives (.symbol accepts) (symbol :: rest) groups rest groups
  | seq {first second input groups middle groups' rest groups''}
      (hfirst : Derives first input groups middle groups')
      (hsecond : Derives second middle groups' rest groups'') :
      Derives (.seq first second) input groups rest groups''
  | altLeft {first second input groups rest groups'}
      (hfirst : Derives first input groups rest groups') :
      Derives (.alt first second) input groups rest groups'
  | altRight {first second input groups rest groups'}
      (hsecond : Derives second input groups rest groups') :
      Derives (.alt first second) input groups rest groups'
  | starNil {body input groups} :
      Derives (.star body) input groups input groups
  | starCons {body input groups middle groups' rest groups''}
      (hbody : Derives body input groups middle groups')
      (hprogress : middle.length < input.length)
      (hrest : Derives (.star body) middle groups' rest groups'') :
      Derives (.star body) input groups rest groups''
  | capture {record body input groups rest groups'}
      (hbody : Derives body input groups rest groups') :
      Derives (.capture record body) input groups rest
        (record groups' (input.take (input.length - rest.length)))

/-- The whole input is a word of the expression. -/
def Accepts (body : Regex α σ) (start : σ) (input : List α) : Prop :=
  ∃ groups, body.Derives input start [] groups

private theorem derives_of_iterate {body : Regex α σ}
    {result : β}
    (hbody : ∀ (next : Continuation α σ β) input groups,
      body.matchK next input groups = some result → ∃ rest groups',
        body.Derives input groups rest groups' ∧ next rest groups' = some result)
    (next : Continuation α σ β) (fuel : ℕ) (input : List α) (groups : σ)
    (hmatch : iterate body.matchK next fuel input groups = some result) :
    ∃ rest groups', (star body).Derives input groups rest groups' ∧
      next rest groups' = some result := by
  induction fuel generalizing input groups with
  | zero => exact ⟨input, groups, .starNil, hmatch⟩
  | succ fuel ih =>
      rw [iterate, Option.or_eq_some_iff] at hmatch
      rcases hmatch with hround | ⟨-, hnext⟩
      · obtain ⟨middle, groups', hderives, hinner⟩ := hbody _ _ _ hround
        by_cases hprogress : middle.length < input.length
        · rw [if_pos hprogress] at hinner
          obtain ⟨rest, groups'', hrest, hnext⟩ := ih _ _ hinner
          exact ⟨rest, groups'', .starCons hderives hprogress hrest, hnext⟩
        · simp [hprogress] at hinner
      · exact ⟨input, groups, .starNil, hnext⟩

/-- Whatever the matcher returns is what the continuation returns after some
derivation. -/
theorem derives_of_matchK {body : Regex α σ} {next : Continuation α σ β}
    {input : List α} {groups : σ} {result : β}
    (hmatch : body.matchK next input groups = some result) :
    ∃ rest groups', body.Derives input groups rest groups' ∧
      next rest groups' = some result := by
  induction body generalizing next input groups with
  | empty => exact ⟨input, groups, .empty, hmatch⟩
  | symbol accepts =>
      cases input with
      | nil => simp [matchK] at hmatch
      | cons head tail =>
          by_cases haccepts : accepts head = true
          · simp only [matchK, haccepts, if_true] at hmatch
            exact ⟨tail, groups, .symbol haccepts, hmatch⟩
          · simp [matchK, haccepts] at hmatch
  | seq first second ihFirst ihSecond =>
      obtain ⟨middle, groups', hfirst, hinner⟩ := ihFirst hmatch
      obtain ⟨rest, groups'', hsecond, hnext⟩ := ihSecond hinner
      exact ⟨rest, groups'', .seq hfirst hsecond, hnext⟩
  | alt first second ihFirst ihSecond =>
      rw [matchK, Option.or_eq_some_iff] at hmatch
      rcases hmatch with hfirst | ⟨-, hsecond⟩
      · obtain ⟨rest, groups', hderives, hnext⟩ := ihFirst hfirst
        exact ⟨rest, groups', .altLeft hderives, hnext⟩
      · obtain ⟨rest, groups', hderives, hnext⟩ := ihSecond hsecond
        exact ⟨rest, groups', .altRight hderives, hnext⟩
  | star body ih =>
      exact derives_of_iterate (fun _ _ _ hround => ih hround) next _ input
        groups hmatch
  | capture record body ih =>
      obtain ⟨rest, groups', hderives, hnext⟩ := ih hmatch
      exact ⟨rest, _, .capture hderives, hnext⟩

private theorem iterate_fuel (body : Regex α σ)
    (next : Continuation α σ β) (fuel fuel' : ℕ) (input : List α) (groups : σ)
    (hfuel : input.length ≤ fuel) (hfuel' : input.length ≤ fuel') :
    iterate body.matchK next fuel input groups =
      iterate body.matchK next fuel' input groups := by
  have hempty : ∀ count groups, iterate body.matchK next count [] groups =
      next [] groups := by
    intro count groups
    cases count with
    | zero => rfl
    | succ count =>
        have hnone : ∀ (reject : Continuation α σ β) groups,
            (∀ rest groups, reject rest groups = none) →
              body.matchK reject [] groups = none := by
          intro reject groups hreject
          rw [Option.eq_none_iff_forall_ne_some]
          intro result hmatch
          obtain ⟨rest, groups', -, hnext⟩ := derives_of_matchK hmatch
          simp [hreject] at hnext
        rw [iterate, hnone _ _ (by simp), Option.none_or]
  induction fuel generalizing input groups fuel' with
  | zero =>
      obtain rfl : input = [] := List.length_eq_zero_iff.mp (by omega)
      rw [hempty, hempty]
  | succ fuel ih =>
      cases fuel' with
      | zero =>
          obtain rfl : input = [] := List.length_eq_zero_iff.mp (by omega)
          rw [hempty, hempty]
      | succ fuel' =>
          rw [iterate, iterate]
          congr 2
          funext rest groups
          split
          · exact ih fuel' rest groups (by omega) (by omega)
          · rfl

/-- Every derivation that satisfies the continuation makes the matcher
succeed. -/
theorem isSome_matchK_of_derives {body : Regex α σ} {input rest : List α}
    {groups groups' : σ} (hderives : body.Derives input groups rest groups')
    {next : Continuation α σ β} (hnext : (next rest groups').isSome) :
    (body.matchK next input groups).isSome := by
  induction hderives generalizing next with
  | empty => exact hnext
  | symbol haccepts =>
      simp only [matchK, haccepts, if_true]
      exact hnext
  | seq _ _ ihFirst ihSecond => exact ihFirst (ihSecond hnext)
  | altLeft _ ih =>
      rw [matchK, Option.isSome_or, ih hnext, Bool.true_or]
  | altRight _ ih =>
      rw [matchK, Option.isSome_or, ih hnext, Bool.or_true]
  | @starNil body input groups =>
      rw [matchK]
      cases input.length with
      | zero => exact hnext
      | succ fuel => rw [iterate, Option.isSome_or, hnext, Bool.or_true]
  | @starCons body input groups middle _ _ _ _ hprogress _ ihBody ihRest =>
      obtain ⟨fuel, hfuel⟩ := Nat.exists_eq_add_of_lt hprogress
      rw [matchK, hfuel, iterate, Option.isSome_or, Bool.or_eq_true]
      left
      apply ihBody
      rw [if_pos hprogress, iterate_fuel body next _ middle.length middle _
        (by omega) (le_refl _)]
      exact ihRest hnext
  | capture _ ih => exact ih hnext

/-- The matcher succeeds exactly when some derivation satisfies the
continuation. -/
theorem isSome_matchK (body : Regex α σ) (next : Continuation α σ β)
    (input : List α) (groups : σ) :
    (body.matchK next input groups).isSome ↔ ∃ rest groups',
      body.Derives input groups rest groups' ∧ (next rest groups').isSome := by
  constructor
  · intro hsome
    obtain ⟨result, hmatch⟩ := Option.isSome_iff_exists.mp hsome
    obtain ⟨rest, groups', hderives, hnext⟩ := derives_of_matchK hmatch
    exact ⟨rest, groups', hderives, by rw [hnext]; rfl⟩
  · rintro ⟨rest, groups', hderives, hnext⟩
    exact isSome_matchK_of_derives hderives hnext

/-- Which part of the input is matched does not depend on the groups. -/
theorem Derives.exists_groups {body : Regex α σ} {input rest : List α}
    {groups groups' : σ} (hderives : body.Derives input groups rest groups')
    (other : σ) : ∃ other', body.Derives input other rest other' := by
  induction hderives generalizing other with
  | empty => exact ⟨other, .empty⟩
  | symbol haccepts => exact ⟨other, .symbol haccepts⟩
  | seq _ _ ihFirst ihSecond =>
      obtain ⟨middle, hfirst⟩ := ihFirst other
      obtain ⟨other', hsecond⟩ := ihSecond middle
      exact ⟨other', .seq hfirst hsecond⟩
  | altLeft _ ih =>
      obtain ⟨other', hfirst⟩ := ih other
      exact ⟨other', .altLeft hfirst⟩
  | altRight _ ih =>
      obtain ⟨other', hsecond⟩ := ih other
      exact ⟨other', .altRight hsecond⟩
  | starNil => exact ⟨other, .starNil⟩
  | starCons _ hprogress _ ihBody ihRest =>
      obtain ⟨middle, hbody⟩ := ihBody other
      obtain ⟨other', hrest⟩ := ihRest middle
      exact ⟨other', .starCons hbody hprogress hrest⟩
  | capture _ ih =>
      obtain ⟨other', hbody⟩ := ih other
      exact ⟨_, .capture hbody⟩

/-- Success does not depend on the groups if it does not for the
continuation. -/
theorem isSome_matchK_groups {body : Regex α σ} {next : Continuation α σ β}
    (hnext : ∀ input groups groups', (next input groups).isSome →
      (next input groups').isSome) {input : List α} {groups : σ}
    (hsome : (body.matchK next input groups).isSome) (groups' : σ) :
    (body.matchK next input groups').isSome := by
  rw [isSome_matchK] at hsome ⊢
  obtain ⟨rest, after, hderives, hsome⟩ := hsome
  obtain ⟨after', hderives'⟩ := hderives.exists_groups groups'
  exact ⟨rest, after', hderives', hnext _ _ _ hsome⟩

/-! ### Derivations of repeated symbols -/

theorem derives_symbol_iff {accepts : α → Bool} {input rest : List α} {groups groups' : σ} :
    (Regex.symbol accepts).Derives input groups rest groups' ↔
      groups = groups' ∧ ∃ head, input = head :: rest ∧ accepts head = true := by
  constructor
  · rintro ⟨⟩
    exact ⟨rfl, _, rfl, ‹_›⟩
  · rintro ⟨rfl, head, rfl, haccepts⟩
    exact .symbol haccepts

theorem Derives.starSymbol {accepts : α → Bool} {read : List α} (rest : List α) (groups : σ)
    (hread : ∀ symbol ∈ read, accepts symbol = true) :
    (Regex.star (.symbol accepts)).Derives (read ++ rest) groups rest groups := by
  induction read with
  | nil => exact .starNil
  | cons head read ih =>
      rw [List.forall_mem_cons] at hread
      exact .starCons (.symbol hread.1) (Nat.lt_succ_self _) (ih hread.2)

theorem Derives.exists_starSymbol {accepts : α → Bool} {input rest : List α} {groups groups' : σ}
    (hderives : (Regex.star (.symbol accepts)).Derives input groups rest groups') :
    groups = groups' ∧ ∃ read, input = read ++ rest ∧
      ∀ symbol ∈ read, accepts symbol = true := by
  generalize hbody : Regex.star (.symbol accepts) = body at hderives
  induction hderives with
  | starNil => exact ⟨rfl, [], rfl, by simp⟩
  | starCons hround _ _ _ ih =>
      cases hbody
      obtain ⟨rfl, head, rfl, haccepts⟩ := derives_symbol_iff.mp hround
      obtain ⟨rfl, read, rfl, hread⟩ := ih rfl
      exact ⟨rfl, head :: read, rfl, List.forall_mem_cons.mpr ⟨haccepts, hread⟩⟩
  | _ => cases hbody

theorem isSome_firstMatch (body : Regex α σ) (start : σ) (input : List α) :
    (body.firstMatch start input).isSome ↔ body.Accepts start input := by
  unfold firstMatch Accepts
  rw [isSome_matchK]
  constructor
  · rintro ⟨rest, groups, hderives, hsome⟩
    cases rest with
    | nil => exact ⟨groups, hderives⟩
    | cons symbol rest => simp at hsome
  · rintro ⟨groups, hderives⟩
    exact ⟨[], groups, hderives, rfl⟩

/-! ## Committing to the greedy choice -/

section Matching

variable {next next' : Continuation α σ β}

theorem matchK_seq (first second : Regex α σ) (input : List α) (groups : σ) :
    (seq first second).matchK next input groups =
      first.matchK (second.matchK next) input groups := rfl

theorem matchK_symbol_cons (accepts : α → Bool) (head : α) (rest : List α)
    (groups : σ) :
    (symbol accepts).matchK next (head :: rest) groups =
      if accepts head then next rest groups else none := rfl

theorem matchK_opt (body : Regex α σ) (input : List α) (groups : σ) :
    body.opt.matchK next input groups =
      (body.matchK next input groups).or (next input groups) := rfl

/-- One round of a greedy repetition. -/
theorem matchK_star (body : Regex α σ) (input : List α) (groups : σ) :
    (star body).matchK next input groups =
      (body.matchK (fun rest groups =>
        if rest.length < input.length then (star body).matchK next rest groups
        else none) input groups).or (next input groups) := by
  rw [matchK, iterate_fuel body next input.length (input.length + 1) input groups
    (le_refl _) (Nat.le_succ _), iterate]
  congr 2
  funext rest groups
  split
  · rw [matchK, iterate_fuel body next input.length rest.length rest groups
      (by omega) (le_refl _)]
  · rfl

theorem matchK_alternatives_cons (body : Regex α σ) (bodies : List (Regex α σ))
    (input : List α) (groups : σ) :
    (alternatives (body :: bodies)).matchK next input groups =
      (body.matchK next input groups).or
        ((alternatives bodies).matchK next input groups) := by
  cases bodies with
  | nil =>
      cases input <;>
        simp [alternatives, matchK]
  | cons other bodies => rfl

/-- `text` starts `input`, symbol by symbol. -/
def prefixBy (accepts : α → α → Bool) : List α → List α → Bool
  | [], _ => true
  | _ :: _, [] => false
  | head :: text, head' :: input =>
      accepts head head' && prefixBy accepts text input

theorem matchK_literal (accepts : α → α → Bool) (text input : List α)
    (groups : σ) :
    (literal accepts text).matchK next input groups =
      if prefixBy accepts text input then next (input.drop text.length) groups
      else none := by
  induction text generalizing input with
  | nil => simp [literal, matchK, prefixBy]
  | cons symbol text ih =>
      cases input with
      | nil => simp [literal, matchK, prefixBy]
      | cons symbol' input =>
          simp only [literal, matchK, ih, List.length_cons,
            List.drop_succ_cons, prefixBy]
          by_cases hsymbol : accepts symbol symbol' = true
          · simp [hsymbol]
          · simp [hsymbol]

theorem matchK_capture_literal (record : σ → List α → σ)
    (accepts : α → α → Bool) (text input : List α) (groups : σ) :
    (capture record (literal accepts text)).matchK next input groups =
      if prefixBy accepts text input then
        next (input.drop text.length) (record groups (input.take text.length))
      else none := by
  rw [matchK, matchK_literal, List.length_drop]
  by_cases hprefix : prefixBy accepts text input = true
  · have hlength : text.length ≤ input.length := by
      induction text generalizing input with
      | nil => simp
      | cons symbol text ih =>
          cases input with
          | nil => simp [prefixBy] at hprefix
          | cons symbol' input =>
              simp only [prefixBy, Bool.and_eq_true] at hprefix
              simpa using ih input hprefix.2
    rw [if_pos hprefix, if_pos hprefix, Nat.sub_sub_self hlength]
  · rw [if_neg hprefix, if_neg hprefix]

private theorem iterate_symbol {accepts : α → Bool}
    (hnext : ∀ symbol rest groups, accepts symbol = true →
      next (symbol :: rest) groups = none) (fuel : ℕ) (input : List α)
    (groups : σ) (hfuel : input.length ≤ fuel) :
    iterate (symbol accepts).matchK next fuel input groups =
      next (input.dropWhile accepts) groups := by
  induction fuel generalizing input with
  | zero =>
      obtain rfl : input = [] := List.length_eq_zero_iff.mp (by omega)
      rfl
  | succ fuel ih =>
      cases input with
      | nil => simp [iterate, matchK]
      | cons first rest =>
          by_cases hfirst : accepts first = true
          · have hlength : rest.length ≤ fuel := by simpa using hfuel
            rw [iterate, hnext first rest groups hfirst, Option.or_none,
              List.dropWhile_cons_of_pos hfirst, ← ih rest hlength]
            simp [matchK, hfirst]
          · simp [iterate, matchK, hfirst]

/-- A greedy run of symbols takes all of them when the continuation accepts
nothing that starts with one. -/
theorem matchK_star_symbol {accepts : α → Bool}
    (hnext : ∀ symbol rest groups, accepts symbol = true →
      next (symbol :: rest) groups = none) (input : List α) (groups : σ) :
    (star (symbol accepts)).matchK next input groups =
      next (input.dropWhile accepts) groups :=
  iterate_symbol hnext input.length input groups (le_refl _)

theorem matchK_plus_symbol {accepts : α → Bool}
    (hnext : ∀ symbol rest groups, accepts symbol = true →
      next (symbol :: rest) groups = none) (input : List α) (groups : σ) :
    (plus (symbol accepts)).matchK next input groups =
      if input.takeWhile accepts = [] then none
      else next (input.dropWhile accepts) groups := by
  cases input with
  | nil => simp [plus, matchK]
  | cons first rest =>
      by_cases hfirst : accepts first = true
      · have hrest := matchK_star_symbol hnext rest groups
        simp only [plus, matchK, hfirst, if_true] at hrest ⊢
        simp [hrest, hfirst]
      · simp [plus, matchK, hfirst]

theorem matchK_capture_plus_symbol {accepts : α → Bool}
    (record : σ → List α → σ)
    (hnext : ∀ symbol rest groups, accepts symbol = true →
      next (symbol :: rest) groups = none) (input : List α) (groups : σ) :
    (capture record (plus (symbol accepts))).matchK next input groups =
      if input.takeWhile accepts = [] then none
      else next (input.dropWhile accepts)
        (record groups (input.takeWhile accepts)) := by
  have htake : input.take (input.length - (input.dropWhile accepts).length) =
      input.takeWhile accepts := by
    have happend : input.takeWhile accepts ++ input.dropWhile accepts = input :=
      List.takeWhile_append_dropWhile
    have hlength := congrArg List.length happend
    rw [List.length_append] at hlength
    have hcount : input.length - (input.dropWhile accepts).length =
        (input.takeWhile accepts).length := by omega
    rw [hcount]
    nth_rewrite 2 [← happend]
    rw [List.take_left]
  rw [matchK, matchK_plus_symbol, htake]
  intro symbol rest groups hsymbol
  exact hnext symbol rest _ hsymbol

/-! ## Inputs with a tail the expression cannot read -/

/-- No symbol of the expression satisfies `stop`. -/
def Avoids (stop : α → Bool) : Regex α σ → Prop
  | .empty => True
  | .symbol accepts => ∀ symbol, stop symbol = true → accepts symbol = false
  | .seq first second => first.Avoids stop ∧ second.Avoids stop
  | .alt first second => first.Avoids stop ∧ second.Avoids stop
  | .star body => body.Avoids stop
  | .capture _ body => body.Avoids stop

theorem avoids_literal {stop : α → Bool} {accepts : α → α → Bool} {text : List α}
    (htext : ∀ symbol ∈ text, ∀ other, stop other = true →
      accepts symbol other = false) :
    (literal accepts text : Regex α σ).Avoids stop := by
  induction text with
  | nil => trivial
  | cons symbol text ih =>
      exact ⟨htext symbol (by simp), ih fun other hother =>
        htext other (by simp [hother])⟩

theorem avoids_alternatives {stop : α → Bool} {bodies : List (Regex α σ)}
    (hbodies : ∀ body ∈ bodies, body.Avoids stop) :
    (alternatives bodies).Avoids stop := by
  induction bodies with
  | nil => exact fun _ _ => rfl
  | cons body bodies ih =>
      cases bodies with
      | nil => exact hbodies body (by simp)
      | cons other bodies =>
          exact ⟨hbodies body (by simp), ih fun b hb => hbodies b (by simp [hb])⟩

private theorem iterate_append {body : Regex α σ} {tail : List α}
    (hbody : ∀ (next : Continuation α σ β) input groups,
      body.matchK next (input ++ tail) groups =
        body.matchK (fun rest groups => next (rest ++ tail) groups) input groups)
    (fuel : ℕ) (input : List α) (groups : σ) :
    iterate body.matchK next fuel (input ++ tail) groups =
      iterate body.matchK (fun rest groups => next (rest ++ tail) groups) fuel
        input groups := by
  induction fuel generalizing input groups with
  | zero => rfl
  | succ fuel ih =>
      rw [iterate, iterate, hbody]
      congr 2
      funext rest groups
      simp only [ih, List.length_append, Nat.add_lt_add_iff_right]

/-- A tail that the expression cannot read is left to the continuation. -/
theorem matchK_append {stop : α → Bool} {tail : List α}
    (htail : ∀ symbol ∈ tail.head?, stop symbol = true) (body : Regex α σ)
    (hbody : body.Avoids stop) (next : Continuation α σ β) (input : List α)
    (groups : σ) :
    body.matchK next (input ++ tail) groups =
      body.matchK (fun rest groups => next (rest ++ tail) groups) input
        groups := by
  induction body generalizing next input groups with
  | empty => rfl
  | symbol accepts =>
      cases input with
      | cons head rest => rfl
      | nil =>
          cases tail with
          | nil => rfl
          | cons head tail =>
              have hstop := hbody head (htail head rfl)
              simp [matchK, hstop]
  | seq first second ihFirst ihSecond =>
      simp only [matchK]
      rw [ihFirst hbody.1]
      congr 1
      funext rest groups
      exact ihSecond hbody.2 next rest groups
  | alt first second ihFirst ihSecond =>
      simp only [matchK]
      rw [ihFirst hbody.1, ihSecond hbody.2]
  | star body ih =>
      simp only [matchK]
      rw [iterate_append (ih hbody)]
      exact iterate_fuel body _ _ _ input groups (by simp) (le_refl _)
  | capture record body ih =>
      simp only [matchK]
      rw [ih hbody]
      congr 1
      funext rest groups
      rw [List.length_append, List.length_append, Nat.add_sub_add_right,
        List.take_append_of_le_length (Nat.sub_le _ _)]

private theorem iterate_congr {body : Regex α σ} {input : List α}
    (hbody : ∀ (next next' : Continuation α σ β) middle groups,
      middle <:+ input → (∀ rest groups, rest <:+ middle →
        next rest groups = next' rest groups) →
          body.matchK next middle groups = body.matchK next' middle groups)
    (hnext : ∀ rest groups, rest <:+ input →
      next rest groups = next' rest groups) (fuel : ℕ) (middle : List α)
    (groups : σ) (hmiddle : middle <:+ input) :
    iterate body.matchK next fuel middle groups =
      iterate body.matchK next' fuel middle groups := by
  induction fuel generalizing middle groups with
  | zero => exact hnext middle groups hmiddle
  | succ fuel ih =>
      rw [iterate, iterate, hnext middle groups hmiddle]
      congr 1
      apply hbody _ _ _ _ hmiddle
      intro rest groups hrest
      split
      · exact ih rest groups (hrest.trans hmiddle)
      · rfl

/-- Only what the continuation does on the ends of the input matters. -/
theorem matchK_congr {body : Regex α σ} {input : List α}
    (hnext : ∀ rest groups, rest <:+ input →
      next rest groups = next' rest groups) (groups : σ) :
    body.matchK next input groups = body.matchK next' input groups := by
  induction body generalizing next next' input groups with
  | empty => exact hnext input groups List.suffix_rfl
  | symbol accepts =>
      cases input with
      | nil => rfl
      | cons head rest =>
          rw [matchK_symbol_cons, matchK_symbol_cons,
            hnext rest groups (List.suffix_cons head rest)]
  | seq first second ihFirst ihSecond =>
      apply ihFirst
      intro middle groups hmiddle
      apply ihSecond
      intro rest groups hrest
      exact hnext rest groups (hrest.trans hmiddle)
  | alt first second ihFirst ihSecond =>
      simp only [matchK]
      rw [ihFirst hnext, ihSecond hnext]
  | star body ih =>
      simp only [matchK]
      exact iterate_congr (fun _ _ _ groups _ hinner => ih hinner groups) hnext
        input.length input groups List.suffix_rfl
  | capture record body ih =>
      simp only [matchK]
      apply ih
      intro rest groups hrest
      exact hnext rest _ hrest

/-! ## What a match keeps -/

/-- Recording a group keeps `property`. -/
def Keeps (property : σ → Prop) : Regex α σ → Prop
  | .empty => True
  | .symbol _ => True
  | .seq first second => first.Keeps property ∧ second.Keeps property
  | .alt first second => first.Keeps property ∧ second.Keeps property
  | .star body => body.Keeps property
  | .capture record body =>
      body.Keeps property ∧
        ∀ groups text, property groups → property (record groups text)

theorem keeps_literal (property : σ → Prop) (accepts : α → α → Bool)
    (text : List α) : (literal accepts text).Keeps property := by
  induction text with
  | nil => trivial
  | cons symbol text ih => exact ⟨trivial, ih⟩

theorem keeps_alternatives {property : σ → Prop} {bodies : List (Regex α σ)}
    (hbodies : ∀ body ∈ bodies, body.Keeps property) :
    (alternatives bodies).Keeps property := by
  induction bodies with
  | nil => trivial
  | cons body bodies ih =>
      cases bodies with
      | nil => exact hbodies body (by simp)
      | cons other bodies =>
          exact ⟨hbodies body (by simp), ih fun b hb => hbodies b (by simp [hb])⟩

theorem Derives.keeps {property : σ → Prop} {body : Regex α σ}
    {input rest : List α} {groups groups' : σ}
    (hderives : body.Derives input groups rest groups')
    (hkeeps : body.Keeps property) (hproperty : property groups) :
    property groups' := by
  induction hderives with
  | empty => exact hproperty
  | symbol => exact hproperty
  | seq _ _ ihFirst ihSecond =>
      exact ihSecond hkeeps.2 (ihFirst hkeeps.1 hproperty)
  | altLeft _ ih => exact ih hkeeps.1 hproperty
  | altRight _ ih => exact ih hkeeps.2 hproperty
  | starNil => exact hproperty
  | starCons _ _ _ ihBody ihRest =>
      exact ihRest hkeeps (ihBody hkeeps hproperty)
  | capture _ ih => exact hkeeps.2 _ _ (ih hkeeps.1 hproperty)

end Matching

end Regex

end Uv.Core
