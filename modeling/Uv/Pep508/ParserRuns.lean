import Uv.Pep508.ParserScan

/-!
# Runs of the parser

`from_str` panics, fails or returns a tree exactly if the run of the scanner on the
whole text ends in a state that does.
-/

namespace Uv.Pep508

open Uv.Core Uv.Pep440
open Uv.Pep440.VersionSpecifier (isWhitespace)
open Interner

section Runs

variable [Alphabetic] [RangeOps ValidVersion] [RangeOps Text]
  {below : Variable → Variable → Prop}

/-- The tree of a text; one that has nothing but ignored expressions is true. -/
def Represents (s : Interner) (tree : NodeId) : Option Formula → Prop
  | some formula => StandsFor s tree formula
  | none => tree = .TRUE

/-- How the run on a text ends and what the parser returns. -/
inductive Parsed (below : Variable → Variable → Prop) (s : Interner) (text : Text) : Prop
  | panic {scan : Scan} (hrun : (fromStr text).run s = none)
      (hruns : (Scan.start text).Runs scan) (hpanics : scan.panics = true)
  | error {e : Pep508Error} {s' : Interner} {scan : Scan}
      (hrun : (fromStr text).run s = some (.error e, s')) (hsound : Sound below s')
      (hruns : (Scan.start text).Runs scan) (hstop : scan.step = none)
      (hpanics : scan.panics = false) (haccepts : scan.accepts = false)
  | ok {tree : NodeId} {s' : Interner} {scan : Scan}
      (hrun : (fromStr text).run s = some (.ok tree, s')) (hsound : Sound below s')
      (hle : s ≤ s') (hrepresents : Represents s' tree scan.frame.value)
      (hruns : (Scan.start text).Runs scan) (haccepts : scan.accepts = true)

/-- The end of the text is expected after the outermost disjunction. -/
theorem end_follows {s : ParserState} {tree : Option NodeId} {formula : Option Formula}
    {scan : Scan} (hready : Ready below s) (hdenotes : Denotes s.interner tree formula)
    (hdisjoined : Disjoined [] formula scan s.cursor.chars) :
    Follows below (do
        ParserM.eatWhitespace
        match ← ParserM.next with
        | some (pos, unexpected) => do
            let remaining ← ParserM.onCursor fun cursor => (cursor.remaining, cursor)
            ParserM.fail ("Unexpected character '" ++ unexpected.toString ++
              "', expected 'and', 'or' or end of input") pos remaining
        | none => pure tree) s scan fun formula scan' _ =>
      scan'.frame.value = formula ∧ scan'.accepts = true := by
  have hspace : ParserM.eatWhitespace.exec s = some (.ok (), s.trimmed) := rfl
  have hrest : scan.rest = s.trimmed.cursor.chars := by
    rw [chars_trimmed, ← hdisjoined.rest, Scan.rest]
    exact (List.dropWhile_idempotent _ _).symm
  cases hchars : s.trimmed.cursor.chars with
  | nil =>
      have hnext : ParserM.next.exec s.trimmed = some (.ok none, s.trimmed) := by
        change some (Except.ok s.trimmed.cursor.next.1, _) = _
        rw [Cursor.next, hchars]
      have haccepts : scan.accepts = true := by
        simp [Scan.accepts, hdisjoined.phase, hdisjoined.outer, hrest, hchars]
      exact .ok ((exec_bind_ok hspace).trans (exec_bind_ok hnext)) hready.trimmed
        (later_trimmed s) hdenotes (.refl scan) ⟨hdisjoined.value, haccepts⟩
  | cons c text =>
      have hnext : ParserM.next.exec s.trimmed =
          some (.ok (some (s.trimmed.cursor.pos, c)),
            ⟨⟨s.trimmed.cursor.input, text, s.trimmed.cursor.pos + c.utf8Size⟩,
              s.trimmed.reports, s.trimmed.interner⟩) := by
        change some (Except.ok s.trimmed.cursor.next.1, _) = _
        rw [Cursor.next, hchars]
      refine .error ((exec_bind_ok hspace).trans (exec_bind_ok hnext)) hready.sound
        (.refl scan) ?_ ?_ ?_
      · simp only [Scan.step, hdisjoined.phase, hdisjoined.rest, hdisjoined.other,
          Scan.stepClose, hdisjoined.outer]
      · simp only [Scan.panics, hdisjoined.phase, hdisjoined.rest, hdisjoined.other]
        rfl
      · simp [Scan.accepts, hrest, hchars]

theorem parseMarkersCursor_follows {s : ParserState} (hready : Ready below s) :
    Follows below parseMarkersCursor s (Scan.start s.cursor.chars) fun formula scan' _ =>
      scan'.frame.value = formula ∧ scan'.accepts = true := by
  have hor := parseMarkerOr_follows (s.cursor.chars.length + 1) s [] s.cursor.chars
    hready (Nat.lt_succ_self _) rfl
  have hall := hor.bind fun tree s' formula scan' hready' _ hdenotes hdisjoined =>
    end_follows hready' hdenotes hdisjoined
  have hremaining : (ParserM.onCursor fun cursor => (cursor.remaining, cursor)).exec s =
      some (.ok s.cursor.chars.length, s) := rfl
  exact hall.of_exec_eq (exec_bind_ok hremaining) (.refl s) (.refl _)

omit [Alphabetic] in
theorem represents_getD {s : Interner} {tree : Option NodeId} {formula : Option Formula}
    (hdenotes : Denotes s tree formula) : Represents s (tree.getD .TRUE) formula := by
  cases tree <;> cases formula
  · rfl
  · exact hdenotes.elim
  · exact hdenotes.elim
  · exact hdenotes

theorem run_fromStr (text : Text) (s : Interner) :
    (fromStr text).run s = (parseMarkersCursor.exec ⟨.new text, [], s⟩).map
      fun read => (read.1.map (·.getD .TRUE), read.2.interner) := by
  have hrun : (fromStr text).run s =
      ((parseMarkersCursor.exec ⟨.new text, [], s⟩).map fun read =>
        ((read.1.map (·.getD .TRUE), read.2.reports), read.2.interner)).bind
          fun read => some (read.1.1, read.2) := rfl
  rw [hrun]
  cases parseMarkersCursor.exec ⟨.new text, [], s⟩ <;> rfl

theorem parsed {s : Interner} (hsound : Sound below s) (text : Text) :
    Parsed below s text := by
  have hready : Ready below ⟨.new text, [], s⟩ := ⟨Cursor.valid_new text, hsound⟩
  have hrun := run_fromStr text s
  cases parseMarkersCursor_follows hready with
  | panic hexec hruns hpanics =>
      rw [hexec] at hrun
      exact .panic hrun hruns hpanics
  | error hexec hsound' hruns hstop hpanics haccepts =>
      rw [hexec] at hrun
      exact .error hrun hsound' hruns hstop hpanics haccepts
  | ok hexec hready' hlater hdenotes hruns hpost =>
      rw [hexec] at hrun
      have hrepresents := represents_getD hdenotes
      rw [← hpost.1] at hrepresents
      exact .ok hrun hready'.sound hlater.interner hrepresents hruns hpost.2

/-! ## Panics -/

/-- In every reachable state, `from_str` returns a tree or an error exactly if no
state of the run has an expression that cannot be lowered or a word that is cut
inside a character. -/
theorem Interner.Reachable.fromStr_returns_iff {s : Interner} (hreach : Reachable s)
    (text : Text) :
    (∃ result s', (fromStr text).run s = some (result, s')) ↔
      ∀ scan, (Scan.start text).Runs scan → scan.panics = false := by
  cases parsed hreach.sound text with
  | panic hrun hruns hpanics =>
      rw [hrun]
      constructor
      · rintro ⟨result, s', hsome⟩
        cases hsome
      · intro hnever
        rw [hnever _ hruns] at hpanics
        cases hpanics
  | error hrun _ hruns hstop hpanics haccepts =>
      refine iff_of_true ⟨_, _, hrun⟩ fun scan' hruns' => ?_
      exact hruns.not_panics hstop hpanics hruns'
  | ok hrun _ _ _ hruns haccepts =>
      refine iff_of_true ⟨_, _, hrun⟩ fun scan' hruns' => ?_
      exact hruns.not_panics (Scan.step_of_accepts haccepts)
        (Scan.panics_of_accepts haccepts) hruns'

end Runs

/-- Enough for texts whose operators start in ASCII. -/
local instance asciiAlphabetic : Alphabetic := ⟨Char.isAlpha, fun _ _ => rfl⟩

/-- A text of two expressions is read, and its run never panics. -/
theorem Interner.Reachable.fromStr_returns_osName :
    ((fromStr "os_name == 'a' and 'b' in extra".toList).run Interner.default).isSome =
        true ∧
      ∀ scan, (Scan.start "os_name == 'a' and 'b' in extra".toList).Runs scan →
        scan.panics = false := by
  have hreturns : ((fromStr "os_name == 'a' and 'b' in extra".toList).run
      Interner.default).isSome = true := by
    decide +kernel
  obtain ⟨⟨result, s'⟩, hrun⟩ := Option.isSome_iff_exists.mp hreturns
  exact ⟨hreturns, (Reachable.default.fromStr_returns_iff _).mp ⟨result, s', hrun⟩⟩

/-- The word after an expression is cut inside `é`, and an inverted `~=` is lowered
although such comparisons are ignored. -/
theorem fromStr_panics :
    ((fromStr "os_name == 'a' é".toList).run Interner.default).isNone = true ∧
      ((fromStr "'linux' ~= sys_platform".toList).run Interner.default).isNone = true := by
  constructor
  · decide +kernel
  · decide +kernel

end Uv.Pep508
