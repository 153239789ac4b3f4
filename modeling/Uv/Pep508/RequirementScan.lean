import Uv.Pep508.Lexing
import Uv.Pep508.RequirementReading

/-!
# The parser of requirements

The parser reads a part of a requirement with positions and slices of the input.  It fails,
returns and panics where the description of the part does.
-/

set_option linter.unusedSectionVars false

namespace Uv.Pep508

open Uv.Core Uv.Pep440
open Uv.Pep440.VersionSpecifier (isWhitespace)
open Interner

variable {Url UrlError : Type}

/-! ## What the parser does -/

variable {α β γ : Type} {s s' s'' : ParserState}

/-- A later state, in which this is left to read; the interner is the same. -/
structure After (s : ParserState) (rest : Text) (s' : ParserState) : Prop where
  valid : s'.cursor.Valid
  chars : s'.cursor.chars = rest
  input : s'.cursor.input = s.cursor.input
  interner : s'.interner = s.interner

/-- The parser does what the description says, and its value has the relation to that of the
description. -/
inductive Tracks (m : RequirementM UrlError α) (s : ParserState) (Rel : α → β → Prop) :
    Reading β → Prop
  | panic (hrun : m.run.run s = none) : Tracks m s Rel .panic
  | error {e : RequirementError UrlError} {s' : ParserState}
      (hreturns : m.Returns s (.error e) s') : Tracks m s Rel .error
  | ok {a : α} {b : β} {rest : Text} {s' : ParserState} (hreturns : m.Returns s (.ok a) s')
      (hrel : Rel a b) (hafter : After s rest s') : Tracks m s Rel (.ok b rest)

theorem After.trans {rest rest' : Text} (hfirst : After s rest s') (hlast : After s' rest' s'') :
    After s rest' s'' :=
  ⟨hlast.valid, hlast.chars, hlast.input.trans hfirst.input,
    hlast.interner.trans hfirst.interner⟩

namespace Tracks

variable {m : RequirementM UrlError α} {f : α → RequirementM UrlError γ} {Rel : α → β → Prop}

theorem after {δ : Type} {Rel' : γ → δ → Prop} {reading : Reading δ} {rest : Text} {a : α}
    (hm : m.Returns s (.ok a) s') (hafter : After s rest s')
    (hf : Tracks (f a) s' Rel' reading) : Tracks (m >>= f) s Rel' reading := by
  cases hf with
  | panic hrun =>
      apply Tracks.panic
      rw [RunM.run_bind, hm]
      exact hrun
  | error hreturns => exact .error (RunM.returns_bind.mpr (Or.inr ⟨a, s', hm, hreturns⟩))
  | ok hreturns hrel hlast =>
      exact .ok (RunM.returns_bind.mpr (Or.inr ⟨a, s', hm, hreturns⟩)) hrel
        (hafter.trans hlast)

theorem bind {δ : Type} {Rel' : γ → δ → Prop} {reading : Reading β}
    {next : β → Text → Reading δ} (hm : Tracks m s Rel reading)
    (hf : ∀ a b rest s', reading = .ok b rest → Rel a b → After s rest s' →
      Tracks (f a) s' Rel' (next b rest)) :
    Tracks (m >>= f) s Rel' (reading.bind next) := by
  cases hm with
  | panic hrun =>
      apply Tracks.panic
      rw [RunM.run_bind, hrun]
  | error hreturns => exact .error (RunM.returns_bind.mpr (Or.inl ⟨_, hreturns, rfl⟩))
  | ok hreturns hrel hafter => exact after hreturns hafter (hf _ _ _ _ rfl hrel hafter)

theorem map {g : α → γ} {Rel' : γ → β → Prop} {reading : Reading β} (hm : Tracks m s Rel reading)
    (hg : ∀ a b, Rel a b → Rel' (g a) b) : Tracks (g <$> m) s Rel' reading := by
  have hbind : Tracks (m >>= fun a => pure (g a)) s Rel' (reading.bind .ok) := by
    apply hm.bind
    intro a b rest s' _ hrel hafter
    exact .ok rfl (hg a b hrel) ⟨hafter.valid, hafter.chars, rfl, rfl⟩
  rw [map_eq_pure_bind]
  cases reading <;> exact hbind

/-- What is read is there, whatever it is. -/
theorem isSome {g : α → Option γ} {reading : Reading Unit}
    (hm : Tracks m s (fun _ _ => True) reading) (hg : ∀ a, (g a).isSome = true) :
    Tracks (g <$> m) s (fun read kind => read.isSome = kind)
      (reading.bind fun _ => .ok true) := by
  rw [map_eq_pure_bind]
  apply hm.bind
  intro a _ rest s' _ _ hafter
  exact .ok rfl (hg a) ⟨hafter.valid, hafter.chars, rfl, rfl⟩

end Tracks

/-! ## The cursor -/

open RequirementM

theorem After.refl (hvalid : s.cursor.Valid) : After s s.cursor.chars s :=
  ⟨hvalid, rfl, rfl, rfl⟩

/-- The position after what was taken. -/
theorem After.pos (hvalid : s.cursor.Valid) {taken rest : Text}
    (hchars : s.cursor.chars = taken ++ rest) (hafter : After s rest s') :
    s'.cursor.pos = s.cursor.pos + byteLength taken := by
  obtain ⟨consumed, hinput, hpos⟩ := hvalid
  obtain ⟨consumed', hinput', hpos'⟩ := hafter.valid
  rw [hafter.input, hinput, hchars, hafter.chars, ← List.append_assoc] at hinput'
  rw [hpos, hpos', ← List.append_cancel_right hinput', byteLength_append]

theorem returns_read {action : ParserM α} {a : α} (hexec : action.exec s = some (.ok a, s')) :
    (read action : RequirementM UrlError α).Returns s (.ok a) s' := by
  change Option.map _ (action.exec s) = _
  rw [hexec]
  rfl

theorem returns_pos : (read ParserM.pos : RequirementM UrlError ℕ).Returns s
    (.ok s.cursor.pos) s := rfl

theorem returns_peek : (peek : RequirementM UrlError _).Returns s
    (.ok (s.cursor.chars.head?.map (s.cursor.pos, ·))) s := rfl

theorem returns_eatWhitespace (UrlError : Type) (hvalid : s.cursor.Valid) : ∃ s',
    (read ParserM.eatWhitespace : RequirementM UrlError Unit).Returns s (.ok ()) s' ∧
      After s (trim s.cursor.chars) s' := by
  refine ⟨⟨s.cursor.eatWhitespace, s.reports, s.interner⟩, rfl, hvalid.nextWhile, ?_, ?_, rfl⟩
  · change (Cursor.nextWhile _ _ _ _).chars = _
    rw [Cursor.nextWhile_eq]
    rfl
  · change (Cursor.nextWhile _ _ _ _).input = _
    rw [Cursor.nextWhile_eq]

theorem returns_next_nil (hchars : s.cursor.chars = []) :
    (read ParserM.next : RequirementM UrlError _).Returns s (.ok none) s := by
  apply returns_read
  change some (Except.ok s.cursor.next.1, _) = _
  rw [Cursor.next, hchars]

theorem returns_next_cons (UrlError : Type) (hvalid : s.cursor.Valid) {c : Char} {rest : Text}
    (hchars : s.cursor.chars = c :: rest) : ∃ s',
      (read ParserM.next : RequirementM UrlError _).Returns s (.ok (some (s.cursor.pos, c))) s' ∧
        After s rest s' := by
  let cursor : Cursor := ⟨s.cursor.input, rest, s.cursor.pos + c.utf8Size⟩
  have hnext : s.cursor.next = (some (s.cursor.pos, c), cursor) := by
    rw [Cursor.next, hchars]
  have hvalid' : cursor.Valid := by
    have happend := hvalid.append (hchars.trans (List.singleton_append).symm)
    rwa [byteLength_cons, byteLength_nil, Nat.add_zero] at happend
  refine ⟨⟨cursor, s.reports, s.interner⟩, ?_, hvalid', rfl, rfl, rfl⟩
  apply returns_read
  change some (Except.ok s.cursor.next.1, _) = _
  rw [hnext]

theorem returns_takeWhile (hvalid : s.cursor.Valid) (condition : Char → Bool) : ∃ s',
    (read (ParserM.takeWhile condition) : RequirementM UrlError _).Returns s
      (.ok (s.cursor.pos, byteLength (s.cursor.chars.takeWhile condition))) s' ∧
        After s (s.cursor.chars.dropWhile condition) s' := by
  have htake : s.cursor.takeWhile condition =
      ((s.cursor.pos, byteLength (s.cursor.chars.takeWhile condition)),
        Cursor.nextWhile condition s.cursor.input s.cursor.chars s.cursor.pos) := by
    simp only [Cursor.takeWhile, Cursor.nextWhile_eq, Nat.add_sub_cancel_left]
  refine ⟨⟨Cursor.nextWhile condition s.cursor.input s.cursor.chars s.cursor.pos, s.reports,
    s.interner⟩, ?_, hvalid.nextWhile, ?_, ?_, rfl⟩
  · apply returns_read
    change some (Except.ok (s.cursor.takeWhile condition).1,
      ParserState.mk (s.cursor.takeWhile condition).2 s.reports s.interner) = _
    rw [htake]
  · rw [Cursor.nextWhile_eq]
  · rw [Cursor.nextWhile_eq]

theorem returns_eatChar (UrlError : Type) (hvalid : s.cursor.Valid) {c : Char} {rest : Text}
    (hchars : s.cursor.chars = c :: rest) : ∃ s',
      (read (ParserM.onCursor (·.eatChar c)) : RequirementM UrlError _).Returns s
        (.ok (some s.cursor.pos)) s' ∧ After s rest s' := by
  obtain ⟨s', hnext, hafter⟩ := returns_next_cons UrlError hvalid hchars
  have heat : s.cursor.eatChar c = (some s.cursor.pos, s.cursor.next.2) := by
    simp only [Cursor.eatChar, Cursor.peek, hchars, List.head?_cons, Option.map_some, if_true]
  refine ⟨s', ?_, hafter⟩
  change some (Except.ok s.cursor.next.1, ParserState.mk s.cursor.next.2 _ _) = _ at hnext
  obtain ⟨_, rfl⟩ := Prod.mk.inj (Option.some.inj hnext)
  change some (Except.ok (s.cursor.eatChar c).1,
    ParserState.mk (s.cursor.eatChar c).2 s.reports s.interner) = _
  rw [heat]

theorem returns_remaining : (read (ParserM.onCursor fun cursor => (cursor.remaining, cursor)) :
    RequirementM UrlError ℕ).Returns s (.ok s.cursor.chars.length) s := rfl

/-- What was taken is the slice between the two positions. -/
theorem returns_slice (hvalid : s.cursor.Valid) {taken rest : Text}
    (hchars : s.cursor.chars = taken ++ rest) (hinput : s'.cursor.input = s.cursor.input) :
    (read (ParserM.slice s.cursor.pos (byteLength taken)) : RequirementM UrlError _).Returns s'
      (.ok taken) s' := by
  apply returns_read
  have hslice : s'.cursor.slice s.cursor.pos (byteLength taken) = some taken := by
    rw [Cursor.slice, hinput]
    exact hvalid.slice_of_prefix hchars
  change Option.map _ (s'.cursor.slice s.cursor.pos (byteLength taken)) = _
  rw [hslice]
  rfl

theorem exists_atPos (hvalid : s.cursor.Valid) (hinput : s'.cursor.input = s.cursor.input) :
    ∃ clone, s'.cursor.atPos s.cursor.pos = some clone ∧ clone.Valid := by
  obtain ⟨consumed, hsplit, hpos⟩ := hvalid
  refine ⟨⟨s.cursor.input, s.cursor.chars, s.cursor.pos⟩, ?_, consumed, hsplit, hpos⟩
  rw [Cursor.atPos, hinput, hsplit, hpos, dropBytes_append]
  rfl

/-- An error for a word that is no name is an error. -/
theorem failUnnamed_error {expandEnvVars : Text → Text} (hvalid : s.cursor.Valid)
    (hinput : s'.cursor.input = s.cursor.input) {unnamed message : String} {start len : ℕ} :
    ∃ e s'', (failUnnamed expandEnvVars s.cursor.pos unnamed message start len :
      RequirementM UrlError α).Returns s' (.error e) s'' := by
  obtain ⟨clone, hclone, hvalidClone⟩ := exists_atPos hvalid hinput
  have htake : clone.chars =
      clone.chars.takeWhile (!isWhitespace ·) ++ clone.chars.dropWhile (!isWhitespace ·) :=
    (List.takeWhile_append_dropWhile ..).symm
  have hslice := hvalidClone.slice_of_prefix htake
  have hlooks : ∃ outcome, looksLikeUnnamedRequirement expandEnvVars clone = some outcome := by
    have hcursor : (clone.takeWhile (!isWhitespace ·)).2.slice clone.pos
        (byteLength (clone.chars.takeWhile (!isWhitespace ·))) =
          some (clone.chars.takeWhile (!isWhitespace ·)) := by
      have hinput : (clone.takeWhile (!isWhitespace ·)).2.input = clone.input := by
        change (Cursor.nextWhile _ _ _ _).input = _
        rw [Cursor.nextWhile_eq]
      rw [Cursor.slice, hinput]
      exact hslice
    have hlen : (clone.takeWhile (!isWhitespace ·)).1 =
        (clone.pos, byteLength (clone.chars.takeWhile (!isWhitespace ·))) := by
      simp only [Cursor.takeWhile, Cursor.nextWhile_eq, Nat.add_sub_cancel_left]
    simp only [looksLikeUnnamedRequirement, hlen]
    exact ⟨_, by rw [hcursor]; rfl⟩
  obtain ⟨⟨looks, after⟩, hlooks⟩ := hlooks
  have hstep : (failUnnamed expandEnvVars s.cursor.pos unnamed message start len :
      RequirementM UrlError α).run.run s' =
        (if looks then fail (.unsupportedRequirement unnamed) s.cursor.pos
            (after.pos - s.cursor.pos)
          else fail (.string message) start len : RequirementM UrlError α).run.run s' := by
    rw [failUnnamed, RunM.run_bind]
    change (unwrap (s'.cursor.atPos s.cursor.pos) >>= _ : RequirementM UrlError α).run.run s' = _
    rw [hclone, unwrap, pure_bind, hlooks, unwrap, pure_bind]
  cases looks with
  | true => exact ⟨_, s', hstep⟩
  | false => exact ⟨_, s', hstep⟩

/-! ## Names -/

theorem nameChar_of_isAlphanumeric {c : Char} (hc : isAlphanumeric c = true) :
    nameChar c = .upper ∨ nameChar c = .plain := by
  simp only [isAlphanumeric, Bool.or_eq_true, Bool.and_eq_true, decide_eq_true_eq] at hc
  unfold nameChar
  split_ifs <;> simp_all

theorem nameChar_of_isNameChar {c : Char} (hc : isNameChar c = true)
    (hnot : isAlphanumeric c = false) : nameChar c = .dash ∨ nameChar c = .punctuation := by
  simp only [isNameChar, hnot, Bool.false_or, Bool.or_eq_true, decide_eq_true_eq] at hc
  rcases hc with (rfl | rfl) | rfl <;> decide

theorem endsInPunctuation_some {c : Char} (hc : isNameChar c = true) :
    endsInPunctuation (some c) = !isAlphanumeric c := by
  cases halphanumeric : isAlphanumeric c with
  | true =>
      rcases nameChar_of_isAlphanumeric halphanumeric with hname | hname <;>
        simp [endsInPunctuation, hname]
  | false =>
      rcases nameChar_of_isNameChar hc halphanumeric with hname | hname <;>
        simp [endsInPunctuation, hname]

/-- The characters read so far are followed by those of a name. -/
structure NameRest (last : Option Char) (rest : List Char) : Prop where
  chars : ∀ c ∈ rest, isNameChar c = true
  first : last = none → ∀ c ∈ rest.head?, isAlphanumeric c = true

theorem NameRest.next {last : Option Char} {c : Char} {rest : List Char}
    (hname : NameRest last (c :: rest)) : NameRest (some c) rest where
  chars other hother := hname.chars other (List.mem_cons_of_mem _ hother)
  first hnone := by cases hnone

/-- The character that is read last. -/
def lastOf (last : Option Char) (rest : List Char) : Option Char :=
  rest.getLast?.or last

theorem lastOf_cons (last : Option Char) (c : Char) (rest : List Char) :
    lastOf last (c :: rest) = lastOf (some c) rest := by
  cases rest with
  | nil => rfl
  | cons other rest =>
      rw [lastOf, lastOf, List.getLast?_cons_cons, List.getLast?_cons]
      rfl

theorem NameRest.ne_none {last : Option Char} {c : Char} {rest : List Char}
    (hname : NameRest last (c :: rest)) (hpunctuation : isAlphanumeric c = false) :
    ∃ l, last = some l := by
  cases last with
  | none =>
      have hc := hname.first rfl c rfl
      rw [hpunctuation] at hc
      cases hc
  | some l => exact ⟨l, rfl⟩

theorem normalizeLoop_isSome {rest : List Char} {last : Option Char} {normalized : List Char}
    (hname : NameRest last rest) :
    (normalizeLoop rest last normalized).isSome = !endsInPunctuation (lastOf last rest) := by
  induction rest generalizing last normalized with
  | nil =>
      have hlast : lastOf last [] = last := rfl
      rw [normalizeLoop, hlast]
      cases endsInPunctuation last <;> rfl
  | cons c rest ih =>
      rw [lastOf_cons]
      cases halphanumeric : isAlphanumeric c with
      | true =>
          rcases nameChar_of_isAlphanumeric halphanumeric with hchar | hchar <;>
            simp only [normalizeLoop, hchar] <;> exact ih hname.next
      | false =>
          obtain ⟨l, rfl⟩ := hname.ne_none halphanumeric
          rcases nameChar_of_isNameChar (hname.chars c List.mem_cons_self) halphanumeric with
            hchar | hchar <;> simp only [normalizeLoop, hchar] <;> split <;> exact ih hname.next

/-- A name that is refused ends in punctuation, and one that is normalized does not. -/
theorem isNormalizedLoop_cases {rest : List Char} {last : Option Char}
    (hname : NameRest last rest) :
    (isNormalizedLoop rest last = none → endsInPunctuation (lastOf last rest) = true) ∧
      (isNormalizedLoop rest last = some true →
        endsInPunctuation (lastOf last rest) = false) := by
  induction rest generalizing last with
  | nil =>
      have hlast : lastOf last [] = last := rfl
      rw [isNormalizedLoop, hlast]
      cases hends : endsInPunctuation last <;> simp
  | cons c rest ih =>
      rw [lastOf_cons]
      cases halphanumeric : isAlphanumeric c with
      | true =>
          rcases nameChar_of_isAlphanumeric halphanumeric with hchar | hchar <;>
            simp only [isNormalizedLoop, hchar]
          · exact ⟨by simp, by simp⟩
          · exact ih hname.next
      | false =>
          obtain ⟨l, rfl⟩ := hname.ne_none halphanumeric
          rcases nameChar_of_isNameChar (hname.chars c List.mem_cons_self) halphanumeric with
            hchar | hchar <;> simp only [isNormalizedLoop, hchar]
          · split
            · exact ⟨by simp, by simp⟩
            · exact ih hname.next
          · exact ⟨by simp, by simp⟩

/-- A name that the cursor reads is valid iff it does not end in punctuation. -/
theorem validateAndNormalize_isSome {c : Char} {rest : List Char}
    (hc : isAlphanumeric c = true) (hrest : ∀ c ∈ rest, isNameChar c = true) :
    (validateAndNormalize (c :: rest)).isSome = (c :: rest).getLast?.any isAlphanumeric := by
  have hchars : ∀ other ∈ c :: rest, isNameChar other = true := by
    intro other hother
    rcases List.mem_cons.mp hother with rfl | hother
    · simp [isNameChar, hc]
    · exact hrest other hother
  have hname : NameRest none (c :: rest) :=
    ⟨hchars, fun _ other hother => by cases hother; exact hc⟩
  have hlast : (!endsInPunctuation (lastOf none (c :: rest))) =
      (c :: rest).getLast?.any isAlphanumeric := by
    rw [lastOf, Option.or_none]
    cases hlast : (c :: rest).getLast? with
    | none => simp at hlast
    | some last =>
        rw [endsInPunctuation_some (hchars last (List.mem_of_getLast? hlast)), Bool.not_not]
        rfl
  rw [← hlast, validateAndNormalize, isNormalized]
  obtain ⟨hnone, htrue⟩ := isNormalizedLoop_cases hname
  cases hnormalized : isNormalizedLoop (c :: rest) none with
  | none => simp [hnone hnormalized]
  | some normalized =>
      cases normalized with
      | true => simp [htrue hnormalized]
      | false => exact normalizeLoop_isSome hname

/-! ## The parts -/

theorem parseName_tracks {expandEnvVars : Text → Text} (hvalid : s.cursor.Valid) :
    Tracks (parseName expandEnvVars : RequirementM UrlError Text) s (fun _ _ => True)
      (readName s.cursor.chars) := by
  rw [parseName]
  apply Tracks.after returns_pos (After.refl hvalid)
  cases hchars : s.cursor.chars with
  | nil =>
      apply Tracks.after (returns_next_nil hchars) (After.refl hvalid)
      exact .error rfl
  | cons c rest =>
      obtain ⟨s₁, hnext, hafter₁⟩ := returns_next_cons UrlError hvalid hchars
      apply Tracks.after hnext hafter₁
      cases hc : isAlphanumeric c with
      | false =>
          simp only [readName, hc, Bool.not_false, if_true, Bool.false_and, Bool.false_eq_true,
            if_false]
          obtain ⟨e, s₂, herror⟩ := failUnnamed_error hvalid hafter₁.input
          exact .error herror
      | true =>
          simp only [readName, hc, Bool.not_true, Bool.true_and, Bool.false_eq_true, if_false]
          obtain ⟨s₂, htake, hafter₂⟩ := returns_takeWhile hafter₁.valid isNameChar
          apply Tracks.after htake hafter₂
          apply Tracks.after returns_pos (After.refl hafter₂.valid)
          let name := c :: rest.takeWhile isNameChar
          have hsplit : s.cursor.chars = name ++ rest.dropWhile isNameChar := by
            rw [hchars, List.cons_append, List.takeWhile_append_dropWhile]
          have hafter : After s (rest.dropWhile isNameChar) s₂ := by
            rw [hafter₁.chars] at hafter₂
            exact hafter₁.trans hafter₂
          have hlen : s₂.cursor.pos - s.cursor.pos = byteLength name := by
            rw [hafter.pos hvalid hsplit, Nat.add_sub_cancel_left]
          rw [hlen]
          apply Tracks.after (returns_slice hvalid hsplit hafter.input) (After.refl hafter₂.valid)
          obtain ⟨last, hlast⟩ : ∃ last, name.getLast? = some last :=
            ⟨_, List.getLast?_eq_getLast_of_ne_nil (List.cons_ne_nil _ _)⟩
          have hchars' : ∀ other ∈ rest.takeWhile isNameChar, isNameChar other = true :=
            fun other hother => List.mem_takeWhile_imp hother
          have hnormalize : (validateAndNormalize name).isSome = isAlphanumeric last := by
            have hsome := validateAndNormalize_isSome hc hchars'
            rwa [hlast] at hsome
          change Tracks (unwrap name.getLast? >>= _) s₂ _
            (if name.getLast?.any isAlphanumeric = true then _ else _)
          rw [hlast, unwrap, pure_bind, Option.any_some]
          cases hend : isAlphanumeric last with
          | false =>
              simp only [Bool.not_false, if_true, Bool.false_eq_true, if_false]
              exact .error rfl
          | true =>
              obtain ⟨normalized, hnormalized⟩ := Option.isSome_iff_exists.mp
                (hnormalize.trans hend)
              simp only [hnormalized, Bool.not_true, Bool.false_eq_true, if_true, if_false]
              exact .ok rfl trivial ⟨hafter₂.valid, hafter.chars, rfl, rfl⟩

theorem parseExtra_tracks {bracketPos : ℕ} (hvalid : s.cursor.Valid) :
    Tracks (parseExtra bracketPos : RequirementM UrlError Text) s (fun _ _ => True)
      (readExtra s.cursor.chars) := by
  rw [parseExtra, readExtra]
  obtain ⟨s₁, htrim, hafter₁⟩ := returns_eatWhitespace UrlError hvalid
  apply Tracks.after htrim hafter₁
  rw [← hafter₁.chars]
  cases hchars : s₁.cursor.chars with
  | nil =>
      apply Tracks.after (returns_next_nil hchars) (After.refl hafter₁.valid)
      exact .error rfl
  | cons c rest =>
      obtain ⟨s₂, hnext, hafter₂⟩ := returns_next_cons UrlError hafter₁.valid hchars
      apply Tracks.after hnext hafter₂
      cases hc : isAlphanumeric c with
      | false =>
          simp only [hc, Bool.not_false, if_true, Bool.false_and, Bool.false_eq_true, if_false]
          exact .error rfl
      | true =>
          simp only [hc, Bool.not_true, Bool.true_and, Bool.false_eq_true, if_false]
          obtain ⟨s₃, htake, hafter₃⟩ := returns_takeWhile hafter₂.valid isNameChar
          rw [hafter₂.chars] at htake hafter₃
          apply Tracks.after htake hafter₃
          have hsplit : s₂.cursor.chars =
              rest.takeWhile isNameChar ++ rest.dropWhile isNameChar := by
            rw [hafter₂.chars, List.takeWhile_append_dropWhile]
          apply Tracks.after (returns_slice hafter₂.valid hsplit hafter₃.input)
            (After.refl hafter₃.valid)
          apply Tracks.after returns_peek (After.refl hafter₃.valid)
          have hend : Tracks (do
              read ParserM.eatWhitespace
              unwrap (validateAndNormalize (c :: rest.takeWhile isNameChar)) :
                RequirementM UrlError Text)
              s₃ (fun _ _ => True)
              (if (c :: rest.takeWhile isNameChar).getLast?.any isAlphanumeric = true then
                .ok () (trim (rest.dropWhile isNameChar)) else .panic) := by
            obtain ⟨s₄, htrim, hafter₄⟩ := returns_eatWhitespace UrlError
              hafter₃.valid
            apply Tracks.after htrim hafter₄
            rw [hafter₃.chars] at hafter₄
            rw [← validateAndNormalize_isSome hc fun other hother => List.mem_takeWhile_imp hother]
            cases validateAndNormalize (c :: rest.takeWhile isNameChar) with
            | none => exact .panic rfl
            | some name => exact .ok rfl trivial ⟨hafter₄.valid, hafter₄.chars, rfl, rfl⟩
          rw [hafter₃.chars]
          cases hrest : rest.dropWhile isNameChar with
          | nil =>
              rw [hrest] at hend
              exact hend
          | cons other after =>
              rw [hrest] at hend
              by_cases hother : other ≠ ',' ∧ other ≠ ']' ∧ isWhitespace other = false
              · have hinvalid : (decide (other = ',') || decide (other = ']') ||
                    isWhitespace other) = false := by
                  simp [hother.1, hother.2.1, hother.2.2]
                simp only [List.head?_cons, Option.map_some, if_pos hother, Option.all_some,
                  hinvalid, Bool.false_eq_true, if_false]
                exact .error rfl
              · have hvalid : (decide (other = ',') || decide (other = ']') ||
                    isWhitespace other) = true := by
                  by_contra hnone
                  apply hother
                  simpa [and_assoc] using hnone
                simp only [List.head?_cons, Option.map_some, if_neg hother, Option.all_some,
                  hvalid, if_true]
                exact hend

theorem parseExtrasLoop_tracks {bracketPos fuel : ℕ} {isFirst : Bool} {extras : List Text}
    (hvalid : s.cursor.Valid) (hfuel : s.cursor.chars.length < fuel) :
    Tracks (parseExtrasLoop bracketPos fuel isFirst extras : RequirementM UrlError (List Text)) s
      (fun _ _ => True) (readExtrasLoop fuel isFirst s.cursor.chars) := by
  induction fuel generalizing s isFirst extras with
  | zero => exact absurd hfuel (Nat.not_lt_zero _)
  | succ fuel ih =>
      -- an extra takes a character at least, so the fuel lasts
      have hextra : ∀ (s₁ : ParserState), s₁.cursor.Valid → s₁.cursor.chars.length ≤ fuel →
          Tracks (do
            let extra ← parseExtra bracketPos
            parseExtrasLoop bracketPos fuel false (extras ++ [extra]) :
              RequirementM UrlError (List Text)) s₁ (fun _ _ => True)
            ((readExtra s₁.cursor.chars).bind fun _ rest => readExtrasLoop fuel false rest) := by
        intro s₁ hvalid₁ hlen
        apply (parseExtra_tracks hvalid₁).bind
        intro extra _ rest s₂ hread _ hafter
        have hshorter := readExtra_ok hread
        have hrest : Tracks (parseExtrasLoop bracketPos fuel false (extras ++ [extra]) :
            RequirementM UrlError (List Text)) s₂ (fun _ _ => True)
            (readExtrasLoop fuel false s₂.cursor.chars) :=
          ih hafter.valid (by rw [hafter.chars]; omega)
        rwa [hafter.chars] at hrest
      rw [parseExtrasLoop]
      apply Tracks.after returns_peek (After.refl hvalid)
      cases hchars : s.cursor.chars with
      | nil =>
          have hnil := hextra s hvalid (by rw [hchars]; exact Nat.zero_le _)
          rw [hchars] at hnil
          exact hnil
      | cons c rest =>
          simp only [List.head?_cons, Option.map_some, readExtrasLoop]
          by_cases hclose : c = ']'
          · rw [if_pos hclose, if_pos hclose]
            obtain ⟨s₁, hnext, hafter⟩ := returns_next_cons UrlError hvalid hchars
            apply Tracks.after hnext hafter
            exact .ok rfl trivial ⟨hafter.valid, hafter.chars, rfl, rfl⟩
          · rw [if_neg hclose, if_neg hclose]
            by_cases hcomma : c = ',' ∧ isFirst = true
            · rw [if_pos hcomma, if_pos hcomma]
              exact .error rfl
            · rw [if_neg hcomma, if_neg hcomma]
              by_cases hother : c ≠ ',' ∧ (!isFirst) = true
              · rw [if_pos hother, if_pos hother]
                exact .error rfl
              · rw [if_neg hother, if_neg hother]
                have hlen : rest.length + 1 < fuel + 1 := by
                  rwa [hchars, List.length_cons] at hfuel
                by_cases hseparator : c = ','
                · rw [if_pos hseparator, if_pos hseparator]
                  obtain ⟨s₁, hnext, hafter⟩ :=
                    returns_next_cons UrlError hvalid hchars
                  apply Tracks.after hnext hafter
                  have hrest := hextra s₁ hafter.valid (by rw [hafter.chars]; omega)
                  rw [hafter.chars] at hrest
                  exact hrest
                · rw [if_neg hseparator, if_neg hseparator]
                  have hrest := hextra s hvalid (by rw [hchars, List.length_cons]; omega)
                  rw [hchars] at hrest
                  exact hrest

theorem parseExtrasCursor_tracks (hvalid : s.cursor.Valid) :
    Tracks (parseExtrasCursor : RequirementM UrlError (List Text)) s (fun _ _ => True)
      (readExtras s.cursor.chars) := by
  rw [parseExtrasCursor]
  by_cases hopen : s.cursor.chars.head? = some '['
  · obtain ⟨rest, hchars⟩ := List.head?_eq_some_iff.mp hopen
    rw [hchars, readExtras]
    obtain ⟨s₁, hopen, hafter₁⟩ := returns_eatChar UrlError hvalid hchars
    apply Tracks.after hopen hafter₁
    obtain ⟨s₂, htrim, hafter₂⟩ := returns_eatWhitespace UrlError hafter₁.valid
    rw [hafter₁.chars] at hafter₂
    apply Tracks.after htrim hafter₂
    apply Tracks.after returns_remaining (After.refl hafter₂.valid)
    have hloop : Tracks (parseExtrasLoop s.cursor.pos (s₂.cursor.chars.length + 1) true [] :
        RequirementM UrlError (List Text)) s₂ (fun _ _ => True)
        (readExtrasLoop (s₂.cursor.chars.length + 1) true s₂.cursor.chars) :=
      parseExtrasLoop_tracks hafter₂.valid (Nat.lt_succ_self _)
    rw [hafter₂.chars] at hloop ⊢
    exact hloop
  · have hnone : s.cursor.eatChar '[' = (none, s.cursor) := by
      rw [Cursor.eatChar, Cursor.peek]
      cases hchars : s.cursor.chars with
      | nil => rfl
      | cons c rest =>
          have hc : c ≠ '[' := by
            rintro rfl
            exact hopen (by rw [hchars]; rfl)
          simp only [List.head?_cons, Option.map_some, if_neg hc]
    have hread : (read (ParserM.onCursor (·.eatChar '[')) : RequirementM UrlError _).Returns s
        (.ok none) s := by
      apply returns_read
      change some (Except.ok (s.cursor.eatChar '[').1,
        ParserState.mk (s.cursor.eatChar '[').2 s.reports s.interner) = _
      rw [hnone]
    have hextras : readExtras s.cursor.chars = .ok () s.cursor.chars := by
      unfold readExtras
      split
      · rename_i rest hchars
        exact absurd (by rw [hchars]; rfl) hopen
      · rfl
    rw [hextras]
    apply Tracks.after hread (After.refl hvalid)
    exact .ok rfl trivial (After.refl hvalid)

/-- The URL is at the start of what is taken. -/
theorem takeUrl_eq (input chars : Text) (pos len : ℕ) : ∃ taken between,
    chars = taken ++ (splitUrl chars).2 ∧ taken = (splitUrl chars).1 ++ between ∧
      takeUrl input chars pos len = (len + byteLength (splitUrl chars).1,
        ⟨input, (splitUrl chars).2, pos + byteLength taken⟩) := by
  induction chars generalizing pos len with
  | nil => exact ⟨[], [], rfl, rfl, rfl⟩
  | cons c rest ih =>
      rw [takeUrl, splitUrl]
      split_ifs with hline hmarker hcomment
      · exact ⟨[c], [c], rfl, rfl, by simp⟩
      · exact ⟨[c], [c], rfl, rfl, by simp⟩
      · exact ⟨[c], [], rfl, rfl, by simp⟩
      · obtain ⟨taken, between, hsplit, htaken, htake⟩ :=
          ih (pos + c.utf8Size) (len + c.utf8Size)
        refine ⟨c :: taken, between, ?_, ?_, ?_⟩
        · rw [List.cons_append, ← hsplit]
        · rw [htaken, List.cons_append]
        · rw [htake, byteLength_cons, byteLength_cons, Nat.add_assoc, Nat.add_assoc]

theorem parseUrlCursor_tracks {parseUrl : Text → Except UrlError Url} (hvalid : s.cursor.Valid) :
    Tracks (parseUrlCursor parseUrl : RequirementM UrlError Url) s (fun _ _ => True)
      (readUrl parseUrl s.cursor.chars) := by
  rw [parseUrlCursor, readUrl]
  obtain ⟨s₁, htrim, hafter₁⟩ := returns_eatWhitespace UrlError hvalid
  apply Tracks.after htrim hafter₁
  apply Tracks.after returns_pos (After.refl hafter₁.valid)
  rw [← hafter₁.chars]
  obtain ⟨taken, between, hsplit, htaken, htake⟩ :=
    takeUrl_eq s₁.cursor.input s₁.cursor.chars s₁.cursor.pos 0
  obtain ⟨url, rest, hread⟩ : ∃ url rest, splitUrl s₁.cursor.chars = (url, rest) :=
    ⟨_, _, rfl⟩
  rw [hread] at hsplit htaken htake ⊢
  let s₂ : ParserState := ⟨⟨s₁.cursor.input, rest, s₁.cursor.pos + byteLength taken⟩, s₁.reports,
    s₁.interner⟩
  have hafter₂ : After s₁ rest s₂ := ⟨hafter₁.valid.append hsplit, rfl, rfl, rfl⟩
  have hread : (read (ParserM.onCursor fun cursor =>
      takeUrl cursor.input cursor.chars cursor.pos 0) : RequirementM UrlError ℕ).Returns s₁
        (.ok (byteLength url)) s₂ := by
    apply returns_read
    change some (Except.ok (takeUrl _ _ _ _).1,
      ParserState.mk (takeUrl _ _ _ _).2 s₁.reports s₁.interner) = _
    rw [htake, Nat.zero_add]
  apply Tracks.after hread hafter₂
  have hurl : s₁.cursor.chars = url ++ (between ++ rest) := by
    rw [hsplit, htaken, List.append_assoc]
  apply Tracks.after (returns_slice hafter₁.valid hurl hafter₂.input) (After.refl hafter₂.valid)
  cases hempty : url.isEmpty with
  | true =>
      simp only [hempty, if_true]
      exact .error rfl
  | false =>
      simp only [hempty, Bool.false_eq_true, if_false]
      cases parseUrl url with
      | error error => exact .error rfl
      | ok parsed => exact .ok rfl trivial (After.refl hafter₂.valid)

theorem specifier_then {buffer : Text} {start last : ℕ} {reading : Reading Unit}
    {f : VersionSpecifier → RequirementM UrlError α} (hvalid : s.cursor.Valid)
    (hf : ∀ specifier, Tracks (f specifier) s (fun _ _ => True) reading) :
    Tracks (parseSpecifier buffer start last >>= f) s (fun _ _ => True)
      (if isSpecifier buffer then reading else .error) := by
  rw [parseSpecifier, isSpecifier]
  cases VersionSpecifier.fromStr buffer with
  | error error => exact .error rfl
  | ok specifier => exact Tracks.after (a := specifier) rfl (After.refl hvalid) (hf specifier)

theorem specifier_last {chars buffer : Text} {start last : ℕ}
    {specifiers : List VersionSpecifier} (hvalid : s.cursor.Valid)
    (hchars : s.cursor.chars = chars) :
    Tracks (do
      let specifier ← parseSpecifier buffer start last
      pure (specifiers ++ [specifier]) : RequirementM UrlError (List VersionSpecifier)) s (fun _ _ => True)
      (if isSpecifier buffer then .ok () chars else .error) := by
  apply specifier_then hvalid
  intro specifier
  exact .ok rfl trivial ⟨hvalid, hchars, rfl, rfl⟩

theorem specifiersLoop_tracks {chars buffer : Text} {start fuel : ℕ}
    {specifiers : List VersionSpecifier} (hvalid : s.cursor.Valid)
    (hchars : s.cursor.chars = chars) (hfuel : chars.length < fuel) :
    Tracks (specifiersLoop fuel start buffer specifiers :
      RequirementM UrlError (List VersionSpecifier)) s (fun _ _ => True)
      (readSpecifiers chars buffer) := by
  induction chars generalizing s buffer start fuel specifiers with
  | nil =>
      obtain ⟨fuel, rfl⟩ := Nat.exists_eq_succ_of_ne_zero (Nat.ne_zero_of_lt hfuel)
      rw [specifiersLoop, readSpecifiers]
      apply Tracks.after returns_peek (After.refl hvalid)
      simp only [hchars, List.head?_nil, Option.map_none]
      apply Tracks.after returns_pos (After.refl hvalid)
      exact specifier_last hvalid hchars
  | cons c rest ih =>
      obtain ⟨fuel, rfl⟩ := Nat.exists_eq_succ_of_ne_zero (Nat.ne_zero_of_lt hfuel)
      rw [List.length_cons] at hfuel
      rw [specifiersLoop, readSpecifiers]
      apply Tracks.after returns_peek (After.refl hvalid)
      simp only [hchars, List.head?_cons, Option.map_some]
      by_cases hsemicolon : c = ';'
      · rw [if_pos hsemicolon, if_pos hsemicolon]
        exact specifier_last hvalid hchars
      · rw [if_neg hsemicolon, if_neg hsemicolon]
        obtain ⟨s₁, hnext, hafter⟩ := returns_next_cons UrlError hvalid hchars
        by_cases hcomma : c = ','
        · rw [if_pos hcomma, if_pos hcomma]
          apply specifier_then hvalid
          intro specifier
          apply Tracks.after hnext hafter
          exact ih hafter.valid hafter.chars (Nat.lt_of_succ_lt_succ hfuel)
        · rw [if_neg hcomma, if_neg hcomma]
          apply Tracks.after hnext hafter
          exact ih hafter.valid hafter.chars (Nat.lt_of_succ_lt_succ hfuel)

theorem parenthesesLoop_tracks {chars buffer : Text} {bracePos start fuel : ℕ}
    {specifiers : List VersionSpecifier} (hvalid : s.cursor.Valid)
    (hchars : s.cursor.chars = chars) (hfuel : chars.length < fuel) :
    Tracks (parenthesesLoop bracePos fuel start buffer specifiers :
      RequirementM UrlError (List VersionSpecifier)) s (fun _ _ => True)
      (readParentheses chars buffer) := by
  induction chars generalizing s buffer start fuel specifiers with
  | nil =>
      obtain ⟨fuel, rfl⟩ := Nat.exists_eq_succ_of_ne_zero (Nat.ne_zero_of_lt hfuel)
      rw [parenthesesLoop, readParentheses]
      apply Tracks.after (returns_next_nil hchars) (After.refl hvalid)
      exact .error rfl
  | cons c rest ih =>
      obtain ⟨fuel, rfl⟩ := Nat.exists_eq_succ_of_ne_zero (Nat.ne_zero_of_lt hfuel)
      rw [List.length_cons] at hfuel
      rw [parenthesesLoop, readParentheses]
      obtain ⟨s₁, hnext, hafter⟩ := returns_next_cons UrlError hvalid hchars
      apply Tracks.after hnext hafter
      dsimp only
      by_cases hcomma : c = ','
      · rw [if_pos hcomma, if_pos hcomma]
        apply specifier_then hafter.valid
        intro specifier
        exact ih hafter.valid hafter.chars (Nat.lt_of_succ_lt_succ hfuel)
      · rw [if_neg hcomma, if_neg hcomma]
        by_cases hclose : c = ')'
        · rw [if_pos hclose, if_pos hclose]
          exact specifier_last hafter.valid hafter.chars
        · rw [if_neg hclose, if_neg hclose]
          exact ih hafter.valid hafter.chars (Nat.lt_of_succ_lt_succ hfuel)

theorem parseVersionSpecifier_tracks (hvalid : s.cursor.Valid) :
    Tracks (parseVersionSpecifier : RequirementM UrlError (VersionOrUrl Url)) s
      (fun _ _ => True) (readSpecifiers s.cursor.chars []) := by
  rw [parseVersionSpecifier]
  apply Tracks.after returns_pos (After.refl hvalid)
  apply Tracks.after returns_remaining (After.refl hvalid)
  exact (specifiersLoop_tracks hvalid rfl (Nat.lt_succ_self _)).map fun _ _ _ => trivial

theorem parseVersionSpecifierParentheses_tracks {c : Char} {rest : Text}
    (hvalid : s.cursor.Valid) (hchars : s.cursor.chars = c :: rest) :
    Tracks (parseVersionSpecifierParentheses : RequirementM UrlError (VersionOrUrl Url)) s
      (fun _ _ => True) (readParentheses (trim rest) []) := by
  rw [parseVersionSpecifierParentheses]
  apply Tracks.after returns_pos (After.refl hvalid)
  obtain ⟨s₁, hnext, hafter₁⟩ := returns_next_cons UrlError hvalid hchars
  apply Tracks.after hnext hafter₁
  obtain ⟨s₂, htrim, hafter₂⟩ := returns_eatWhitespace UrlError hafter₁.valid
  rw [hafter₁.chars] at hafter₂
  apply Tracks.after htrim hafter₂
  apply Tracks.after returns_pos (After.refl hafter₂.valid)
  apply Tracks.after returns_remaining (After.refl hafter₂.valid)
  have hfuel : (trim rest).length < s₂.cursor.chars.length + 1 := by
    rw [hafter₂.chars]
    exact Nat.lt_succ_self _
  exact (parenthesesLoop_tracks hafter₂.valid hafter₂.chars hfuel).map fun _ _ _ => trivial

/-- The description knows whether there is a URL or a specifier. -/
theorem parseVersionOrUrl_tracks {expandEnvVars : Text → Text}
    {parseUrl : Text → Except UrlError Url} {start : ParserState} (hstart : start.cursor.Valid)
    (hvalid : s.cursor.Valid) (hinput : s.cursor.input = start.cursor.input) :
    Tracks (parseVersionOrUrl expandEnvVars parseUrl start.cursor.pos) s
      (fun kind some => kind.isSome = some) (readVersionOrUrl parseUrl s.cursor.chars) := by
  rw [parseVersionOrUrl]
  apply Tracks.after returns_peek (After.refl hvalid)
  cases hchars : s.cursor.chars with
  | nil => exact .ok rfl rfl ⟨hvalid, hchars, rfl, rfl⟩
  | cons c rest =>
      simp only [List.head?_cons, Option.map_some, readVersionOrUrl]
      by_cases hat : c = '@'
      · rw [if_pos hat, if_pos hat]
        obtain ⟨s₁, hnext, hafter⟩ := returns_next_cons UrlError hvalid hchars
        apply Tracks.after hnext hafter
        have hurl : Tracks (parseUrlCursor parseUrl) s₁ (fun _ _ => True)
            (readUrl parseUrl s₁.cursor.chars) := parseUrlCursor_tracks hafter.valid
        rw [hafter.chars] at hurl
        exact hurl.isSome fun _ => rfl
      · rw [if_neg hat, if_neg hat]
        by_cases hopen : c = '('
        · rw [if_pos hopen, if_pos hopen]
          exact (parseVersionSpecifierParentheses_tracks hvalid hchars).isSome fun _ => rfl
        · rw [if_neg hopen, if_neg hopen]
          by_cases hoperator : "<=>~!".toList.contains c = true
          · rw [if_pos hoperator, if_pos hoperator]
            have hspecifier : Tracks (parseVersionSpecifier :
                RequirementM UrlError (VersionOrUrl Url)) s (fun _ _ => True)
                (readSpecifiers s.cursor.chars []) := parseVersionSpecifier_tracks hvalid
            rw [hchars] at hspecifier
            exact hspecifier.isSome fun _ => rfl
          · rw [if_neg hoperator, if_neg hoperator]
            by_cases hsemicolon : c = ';'
            · rw [if_pos hsemicolon, if_pos hsemicolon]
              exact .ok rfl rfl ⟨hvalid, hchars, rfl, rfl⟩
            · rw [if_neg hsemicolon, if_neg hsemicolon]
              obtain ⟨e, s₁, herror⟩ := failUnnamed_error hstart hinput
              exact .error herror

theorem parseHead_tracks {expandEnvVars : Text → Text} {parseUrl : Text → Except UrlError Url}
    (hvalid : s.cursor.Valid) :
    Tracks (parseHead expandEnvVars parseUrl) s (fun _ _ => True)
      (readHead parseUrl s.cursor.chars) := by
  rw [parseHead, readHead]
  apply Tracks.after returns_pos (After.refl hvalid)
  obtain ⟨s₁, htrim₁, hafter₁⟩ := returns_eatWhitespace UrlError hvalid
  apply Tracks.after htrim₁ hafter₁
  apply Tracks.after returns_pos (After.refl hafter₁.valid)
  rw [← hafter₁.chars]
  apply (parseName_tracks hafter₁.valid).bind
  intro name written rest s₂ hname _ hafter₂
  have hsplit := readName_ok hname
  apply Tracks.after returns_pos (After.refl hafter₂.valid)
  obtain ⟨s₃, htrim₃, hafter₃⟩ := returns_eatWhitespace UrlError hafter₂.valid
  rw [hafter₂.chars] at hafter₃
  apply Tracks.after htrim₃ hafter₃
  rw [← hafter₃.chars]
  apply (parseExtrasCursor_tracks hafter₃.valid).bind
  intro extras _ rest s₄ _ _ hafter₄
  obtain ⟨s₅, htrim₅, hafter₅⟩ := returns_eatWhitespace UrlError hafter₄.valid
  rw [hafter₄.chars] at hafter₅
  apply Tracks.after htrim₅ hafter₅
  have hinput₅ : s₅.cursor.input = s₁.cursor.input :=
    hafter₅.input.trans (hafter₄.input.trans (hafter₃.input.trans hafter₂.input))
  rw [← hafter₅.chars]
  apply (parseVersionOrUrl_tracks hvalid hafter₅.valid (hinput₅.trans hafter₁.input)).bind
  intro requirementKind kind rest s₆ _ hkind hafter₆
  rw [← hkind]
  cases requirementKind with
  | some requirementKind => exact .ok rfl trivial (hafter₆.chars ▸ After.refl hafter₆.valid)
  | none =>
      simp only [Option.isNone_none, Option.isSome_none, if_true, Bool.not_false, Bool.true_and]
      rw [hafter₂.pos hafter₁.valid hsplit, Nat.add_sub_cancel_left]
      apply Tracks.after (returns_slice hafter₁.valid hsplit (hafter₆.input.trans hinput₅))
        (After.refl hafter₆.valid)
      cases harchive : looksLikeArchive written with
      | false => exact .ok rfl trivial (hafter₆.chars ▸ After.refl hafter₆.valid)
      | true =>
          have hcursor : (read (ParserM.onCursor fun cursor => (cursor, cursor)) :
              RequirementM UrlError Cursor).Returns s₆ (.ok s₆.cursor) s₆ := rfl
          have hinput₆ : s₆.cursor.input = s.cursor.input :=
            hafter₆.input.trans (hinput₅.trans hafter₁.input)
          obtain ⟨clone, hclone, _⟩ := exists_atPos hvalid hinput₆
          simp only [if_true]
          apply Tracks.after hcursor (After.refl hafter₆.valid)
          rw [hclone, unwrap, pure_bind]
          exact .error rfl

end Uv.Pep508
