import Uv.Pep508.ParserRuns
import Uv.Pep508.RequirementScan

/-!
# Runs on requirements

`Requirement::from_str` panics at an extra that is no name, and where the parser of markers
does.  Everywhere else it returns.
-/

set_option linter.unusedSectionVars false

namespace Uv.Pep508

open Uv.Core Uv.Pep440
open Uv.Pep440.VersionSpecifier (isWhitespace)
open Interner RequirementM

variable {Url UrlError : Type} {s s' : ParserState}

section Runs

variable [Alphabetic] [RangeOps ValidVersion] [RangeOps Text]
  {expandEnvVars : Text → Text} {parseUrl : Text → Except UrlError Url}

/-- Once the marker is read, the parser returns. -/
theorem parseRequirementEnd_ends {name : Text} {extras : List Text}
    {versionOrUrl : Option (VersionOrUrl Url)} {marker : Option NodeId}
    (hvalid : s.cursor.Valid) :
    (parseRequirementEnd name extras versionOrUrl marker :
      RequirementM UrlError (Requirement Url)).Ends s := by
  rw [parseRequirementEnd]
  apply RunM.ends_bind
  · obtain ⟨s₁, htrim, hafter⟩ := returns_eatWhitespace UrlError hvalid
    exact ⟨.ok (), s₁, htrim⟩
  · intro _ s₁ _
    apply RunM.ends_bind
    · exact ⟨.ok s₁.cursor.next.1, ⟨s₁.cursor.next.2, s₁.reports, s₁.interner⟩, rfl⟩
    · intro next s₂ _
      cases next with
      | none => exact ⟨_, _, rfl⟩
      | some next =>
          obtain ⟨pos, c⟩ := next
          dsimp only
          split
          · exact ⟨_, _, rfl⟩
          · exact ⟨_, _, rfl⟩

theorem trim_of_markerAfter {text marker : Text} (hmarker : markerAfter text = some marker) :
    trim text = ';' :: marker := by
  rw [markerAfter] at hmarker
  split at hmarker
  · cases hmarker
    assumption
  · cases hmarker

/-- Before a semicolon, the marker is read from what follows it. -/
theorem parseQuotedMarker_run (UrlError : Type) {marker : Text} (hvalid : s.cursor.Valid)
    (hchars : trim s.cursor.chars = ';' :: marker) : ∃ s',
      (parseQuotedMarker : RequirementM UrlError _).run.run s =
        (parseMarkersCursor.exec s').map (fun outcome =>
          (outcome.1.mapError fun e => ⟨.string e.message, e.start, e.len, e.input⟩,
            outcome.2)) ∧ After s marker s' := by
  obtain ⟨s₁, htrim, hafter₁⟩ := returns_eatWhitespace UrlError hvalid
  rw [hchars] at hafter₁
  obtain ⟨s₂, hnext, hafter₂⟩ := returns_next_cons UrlError hafter₁.valid
    hafter₁.chars
  have hpeek : (peek : RequirementM UrlError _).Returns s₁ (.ok (some (s₁.cursor.pos, ';'))) s₁ := by
    have hpeek : (peek : RequirementM UrlError _).Returns s₁
        (.ok (s₁.cursor.chars.head?.map (s₁.cursor.pos, ·))) s₁ := returns_peek
    rwa [hafter₁.chars] at hpeek
  refine ⟨s₂, ?_, hafter₁.trans hafter₂⟩
  rw [parseQuotedMarker, RunM.run_bind, htrim]
  dsimp only
  rw [RunM.run_bind, hpeek]
  change (read ParserM.next >>= fun _ => read parseMarkersCursor :
    RequirementM UrlError _).run.run s₁ = _
  rw [RunM.run_bind, hnext]
  rfl

/-- Where no semicolon follows, there is no marker. -/
theorem parseQuotedMarker_none (UrlError : Type) (hvalid : s.cursor.Valid)
    (hnone : markerAfter s.cursor.chars = none) : ∃ s',
      (parseQuotedMarker : RequirementM UrlError _).Returns s (.ok none) s' ∧
        After s (trim s.cursor.chars) s' := by
  obtain ⟨s₁, htrim, hafter₁⟩ := returns_eatWhitespace UrlError hvalid
  have hpeek : (peek : RequirementM UrlError _).Returns s₁
      (.ok (s₁.cursor.chars.head?.map (s₁.cursor.pos, ·))) s₁ := returns_peek
  refine ⟨s₁, ?_, hafter₁⟩
  rw [RunM.Returns, parseQuotedMarker, RunM.run_bind, htrim]
  dsimp only
  rw [RunM.run_bind, hpeek]
  dsimp only
  split
  · rename_i pos hchar
    obtain ⟨c, hhead, hc⟩ := Option.map_eq_some_iff.mp hchar
    obtain ⟨_, rfl⟩ := Prod.mk.inj hc
    obtain ⟨marker, hmarker⟩ := List.head?_eq_some_iff.mp hhead
    rw [hafter₁.chars] at hmarker
    rw [markerAfter, hmarker] at hnone
    cases hnone
  · rfl

/-- The parser of the marker and the end returns unless the run on the marker panics. -/
theorem parseQuotedMarker_ends_iff {below : Variable → Variable → Prop} {name : Text}
    {extras : List Text} {versionOrUrl : Option (VersionOrUrl Url)} (hready : Ready below s) :
    (parseQuotedMarker >>= parseRequirementEnd name extras versionOrUrl :
      RequirementM UrlError (Requirement Url)).Ends s ↔
      ∀ marker, markerAfter s.cursor.chars = some marker →
        ∀ scan, (Scan.start marker).Runs scan → scan.panics = false := by
  cases hmarker : markerAfter s.cursor.chars with
  | none =>
      obtain ⟨s', hreturns, hafter⟩ :=
        parseQuotedMarker_none UrlError hready.cursor hmarker
      simp only [reduceCtorEq, false_implies, implies_true, iff_true]
      apply RunM.ends_bind
      · exact ⟨_, _, hreturns⟩
      · intro marker s₂ hreturns'
        obtain ⟨_, rfl⟩ := hreturns.unique hreturns'
        exact parseRequirementEnd_ends hafter.valid
  | some marker =>
      obtain ⟨s', hrun, hafter⟩ :=
        parseQuotedMarker_run UrlError hready.cursor (trim_of_markerAfter hmarker)
      have hready' : Ready below s' := ⟨hafter.valid, by rw [hafter.interner]; exact hready.sound⟩
      have hfollows := parseMarkersCursor_follows hready'
      rw [hafter.chars] at hfollows
      simp only [Option.some.injEq, forall_eq']
      cases hfollows with
      | panic hexec hruns hpanics =>
          rw [hexec, Option.map_none] at hrun
          apply iff_of_false
          · rintro ⟨result, s'', hreturns⟩
            rw [RunM.Returns, RunM.run_bind, hrun] at hreturns
            cases hreturns
          · intro hnever
            rw [hnever _ hruns] at hpanics
            cases hpanics
      | error hexec hsound hruns hstop hpanics haccepts =>
          rw [hexec, Option.map_some] at hrun
          apply iff_of_true
          · exact ⟨_, _, RunM.returns_bind.mpr (Or.inl ⟨_, hrun, rfl⟩)⟩
          · intro scan hruns'
            exact hruns.not_panics hstop hpanics hruns'
      | ok hexec hready'' hlater hdenotes hruns hpost =>
          rw [hexec, Option.map_some] at hrun
          apply iff_of_true
          · exact (RunM.ends_bind_of_returns hrun).mpr (parseRequirementEnd_ends hready''.cursor)
          · intro scan hruns'
            exact hruns.not_panics (Scan.step_of_accepts hpost.2)
              (Scan.panics_of_accepts hpost.2) hruns'

variable (expandEnvVars parseUrl) in
/-- In every reachable state the parser of requirements returns a requirement or an error iff
every extra that it comes to is a name and the run on the marker never panics. -/
theorem Interner.Reachable.requirement_returns_iff {interner : Interner}
    (hreach : Reachable interner) (text : Text) :
    (∃ result interner', (Requirement.fromStr expandEnvVars parseUrl text).run interner =
        some (result, interner')) ↔
      ¬ HasBadExtra text ∧ ∀ marker, markerText parseUrl text = some marker →
        ∀ scan, (Scan.start marker).Runs scan → scan.panics = false := by
  have hends : (∃ result interner', (Requirement.fromStr expandEnvVars parseUrl text).run
      interner = some (result, interner')) ↔
        (parsePep508Requirement expandEnvVars parseUrl).Ends ⟨.new text, [], interner⟩ := by
    constructor
    · rintro ⟨result, interner', hrun⟩
      obtain ⟨⟨result, s'⟩, hrun, _⟩ := Option.map_eq_some_iff.mp hrun
      exact ⟨result, s', hrun⟩
    · rintro ⟨result, s', hrun⟩
      exact ⟨result, s'.interner, Option.map_eq_some_iff.mpr ⟨_, hrun, rfl⟩⟩
  have hpanic : HasBadExtra text ↔ readHead parseUrl text = .panic := readHead_eq_panic.symm
  rw [hends, hpanic, markerText, parsePep508Requirement]
  have hhead : Tracks (parseHead expandEnvVars parseUrl) ⟨.new text, [], interner⟩
      (fun _ _ => True) (readHead parseUrl text) := parseHead_tracks (Cursor.valid_new text)
  generalize readHead parseUrl text = reading at hhead
  cases hhead with
  | panic hrun =>
      apply iff_of_false
      · rintro ⟨result, s', hreturns⟩
        rw [RunM.Returns, RunM.run_bind, hrun] at hreturns
        cases hreturns
      · intro hnever
        exact hnever.1 rfl
  | error hreturns =>
      apply iff_of_true
      · exact ⟨_, _, RunM.returns_bind.mpr (Or.inl ⟨_, hreturns, rfl⟩)⟩
      · exact ⟨by simp, by simp⟩
  | ok hreturns _ hafter =>
      rename_i head _ rest s' _
      obtain ⟨name, extras, versionOrUrl⟩ := head
      have hready : Ready Variable.Below s' :=
        ⟨hafter.valid, by rw [hafter.interner]; exact hreach.sound⟩
      have hmarker : (parseQuotedMarker >>= parseRequirementEnd name extras versionOrUrl :
          RequirementM UrlError (Requirement Url)).Ends s' ↔ _ :=
        parseQuotedMarker_ends_iff hready
      rw [hafter.chars] at hmarker
      rw [RunM.ends_bind_of_returns hreturns, hmarker]
      simp

end Runs

/-- Enough for markers whose operators start in ASCII. -/
local instance requirementAlphabetic : Alphabetic := asciiAlphabetic

/-- A requirement with two extras and a marker is read. -/
theorem Interner.Reachable.requirement_returns_extras :
    ((Requirement.fromStr id (fun _ => (.ok () : Except Unit Unit))
        "a[b, c-d] >=1 ; os_name == 'a'".toList).run Interner.default).isSome = true ∧
      ¬ HasBadExtra "a[b, c-d] >=1 ; os_name == 'a'".toList := by
  have hreturns : ((Requirement.fromStr id (fun _ => (.ok () : Except Unit Unit))
      "a[b, c-d] >=1 ; os_name == 'a'".toList).run Interner.default).isSome = true := by
    decide +kernel
  obtain ⟨⟨result, s'⟩, hrun⟩ := Option.isSome_iff_exists.mp hreturns
  exact ⟨hreturns, ((Reachable.default.requirement_returns_iff _ _ _).mp ⟨result, s', hrun⟩).1⟩

/-- The extra `b-` is let through and is no name; the markers panic by themselves. -/
theorem requirement_panics :
    ["a[b-]", "a; os_name == 'a' é", "a; 'linux' ~= sys_platform"].all (fun text =>
      ((Requirement.fromStr id (fun _ => (.ok () : Except Unit Unit)) text.toList).run
        Interner.default).isNone) = true := by
  decide +kernel

end Uv.Pep508
