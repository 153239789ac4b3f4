import Uv.Pep440.ReleaseKeys
import Uv.Pep440.VersionRoundTrip
import Uv.Pep508.ExpressionEdges
import Uv.Pep508.Lexing

/-!
# Lowering what is parsed

Every expression the parser makes can be lowered, except for one: a string is
compared with `~=` when the string stands on the left.  The versions of an
expression have a release, because they have been parsed, and that is all the
lowering relies on.
-/

namespace Uv.Pep508

open Uv.Core Uv.Pep440

/-! ## Versions with a release -/

theorem release_onlyRelease (version : ValidVersion) :
    version.onlyRelease.val.release = version.val.release := by
  rw [Version.release_eq]
  exact congrArg VersionFull.release (Version.makeFull_new _)

theorem bumpLast_isSome {release : List ℕ} (hne : release ≠ []) :
    ∃ bumped, bumpLast release = some bumped := by
  obtain ⟨last, hlast⟩ := Option.isSome_iff_exists.mp
    (List.getLast?_isSome.mpr hne)
  exact ⟨_, by rw [bumpLast, hlast]; rfl⟩

/-- A parsed version has a release. -/
theorem release_parseVersion {text : Text} {version : ValidVersion}
    (hparse : parseVersion text = some version) : version.val.release ≠ [] := by
  unfold parseVersion at hparse
  split at hparse
  · rename_i parsed hfrom
    cases hparse
    rw [Version.release_eq]
    exact (Version.stored_of_fromStr hfrom).2
  · cases hparse

theorem release_parsePattern {text : Text} {version : ValidVersion} {wildcard : Bool}
    (hparse : parsePattern text = some (version, wildcard)) :
    version.val.release ≠ [] := by
  unfold parsePattern at hparse
  split at hparse
  · rename_i pattern hfrom
    cases hparse
    rw [Version.release_eq]
    exact (Parser.parsePattern_stored hfrom).2
  · cases hparse

/-! ## Lowering -/

/-- The versions of the expression have a release. -/
def MarkerExpression.Released : MarkerExpression → Prop
  | .version _ specifier => specifier.version.val.release ≠ []
  | .versionIn _ versions _ => ∀ version ∈ versions, version.val.release ≠ []
  | _ => True

/-- The one expression that is not lowered. -/
def MarkerExpression.isTilde : MarkerExpression → Bool
  | .string _ .tildeEqual _ => true
  | _ => false

theorem release_onlyReleaseTrimmed_single {version : ValidVersion} {segment : ℕ}
    (hrelease : version.val.release = [segment]) :
    version.onlyReleaseTrimmed.val.release = [segment] := by
  change version.val.onlyReleaseTrimmed.release = [segment]
  rw [Version.onlyReleaseTrimmed, hrelease]
  by_cases hzero : segment = 0
  · subst hzero
    exact release_new [0]
  · have hany : [segment].any (· != 0) = true := by simpa using hzero
    have htrim : Order.trimZeros [segment] = [segment] := by
      simpa [Order.trimZeros, List.rdropWhile] using hzero
    rw [if_pos hany, htrim]
    exact release_new [segment]

theorem fromVersion_new {operator : Operator} (htilde : operator ≠ .tildeEqual)
    (numbers : List ℕ) : ∃ specifier,
      VersionSpecifier.fromVersion operator (.new numbers) = .ok specifier ∧
        specifier.version = .new numbers := by
  have hlocal : (ValidVersion.new numbers).val.isLocal = false := by
    rw [Version.isLocal, Version.localVersion_eq]
    exact congrArg (fun full : VersionFull => !full.localVersion.isEmpty)
      (Version.makeFull_new numbers)
  refine ⟨⟨operator, .new numbers, fun heq => (htilde heq).elim⟩, ?_, rfl⟩
  rw [VersionSpecifier.fromVersion, hlocal, if_neg (by simp),
    dif_neg fun hboth => htilde hboth.1]

section Lowering

variable [RangeOps ValidVersion]

theorem releaseSpecifierToRange_isSome {specifier : VersionSpecifier} (trim : Bool)
    (hrelease : specifier.version.val.release ≠ []) :
    ∃ range, specifier.releaseSpecifierToRange trim = some range := by
  have hstar : ∃ bumped, bumpLast specifier.version.onlyRelease.val.release =
      some bumped := by
    rw [release_onlyRelease]
    exact bumpLast_isSome hrelease
  obtain ⟨bumped, hbumped⟩ := hstar
  unfold VersionSpecifier.releaseSpecifierToRange
  cases hoperator : specifier.operator with
  | tildeEqual =>
      have hlength := specifier.tildeEqual_release hoperator
      have hdrop : specifier.version.val.release.dropLast ≠ [] := by
        rw [← List.length_pos_iff, List.length_dropLast]
        omega
      obtain ⟨upper, hupper⟩ := bumpLast_isSome hdrop
      simp only [VersionSpecifier.tildeUpper, hupper]
      exact ⟨_, rfl⟩
  | equalStar =>
      simp only [hbumped]
      exact ⟨_, rfl⟩
  | notEqualStar =>
      simp only [hbumped]
      exact ⟨_, rfl⟩
  | _ => exact ⟨_, rfl⟩

theorem fromSpecifier_isSome {specifier : VersionSpecifier}
    (hrelease : specifier.version.val.release ≠ []) :
    ∃ edges, Edges.fromSpecifier specifier = some edges := by
  have honly : specifier.onlyRelease.version.val.release ≠ [] := by
    rw [VersionSpecifier.onlyRelease, release_onlyRelease]
    exact hrelease
  obtain ⟨range, hrange⟩ := releaseSpecifierToRange_isSome true honly
  exact ⟨_, by rw [Edges.fromSpecifier, hrange]; rfl⟩

omit [RangeOps ValidVersion] in
/-- A `python_version` specifier has an equivalent, or a constant stands for
it. -/
theorem pythonVersionToFullVersion_isSome {specifier : VersionSpecifier}
    (hrelease : specifier.version.val.release ≠ []) :
    ∃ result, Edges.pythonVersionToFullVersion specifier = some result ∧
      ∀ full, result = .ok full → full.version.val.release ≠ [] := by
  have hnew : ∀ major minor : ℕ,
      (ValidVersion.new [major, minor]).val.release ≠ [] := fun major minor => by
    rw [release_new]
    exact List.cons_ne_nil _ _
  unfold Edges.pythonVersionToFullVersion
  dsimp only
  by_cases hstar : specifier.operator.isStar = true
  · rw [if_pos hstar]
    match hsegments : specifier.version.val.release with
    | [] => exact (hrelease hsegments).elim
    | [major] => exact ⟨_, rfl, fun full hfull => by cases hfull; exact hrelease⟩
    | major :: minor :: rest =>
        dsimp only
        split
        · have htilde : specifier.operator ≠ .tildeEqual := fun heq => by
            rw [heq] at hstar
            cases hstar
          obtain ⟨built, hbuilt, hversion⟩ := fromVersion_new htilde [major, minor]
          rw [hbuilt]
          refine ⟨_, rfl, fun full hfull => ?_⟩
          cases hfull
          rw [hversion]
          exact hnew major minor
        · exact ⟨_, rfl, fun full hfull => by cases hfull⟩
  · rw [if_neg hstar]
    by_cases htilde : specifier.operator = .tildeEqual
    · rw [if_pos htilde]
      match hsegments : specifier.version.val.release with
      | [] => exact (hrelease hsegments).elim
      | [major] => exact ⟨_, rfl, fun full hfull => by cases hfull⟩
      | [major, minor] =>
          exact ⟨_, rfl, fun full hfull => by cases hfull; exact hrelease⟩
      | major :: minor :: patch :: rest =>
          dsimp only
          split
          · exact ⟨_, rfl, fun full hfull => by cases hfull; exact hnew major minor⟩
          · exact ⟨_, rfl, fun full hfull => by cases hfull⟩
    · rw [if_neg htilde]
      split
      · -- The release has no more than two segments up to trailing zeros.
        rename_i major minor hmajorMinor
        cases hoperator : specifier.operator with
        | equalStar => exact (hstar (by rw [hoperator]; rfl)).elim
        | notEqualStar => exact (hstar (by rw [hoperator]; rfl)).elim
        | tildeEqual => exact (htilde hoperator).elim
        | lessThan => exact ⟨_, rfl, fun full hfull => by cases hfull; exact hrelease⟩
        | greaterThanEqual =>
            exact ⟨_, rfl, fun full hfull => by cases hfull; exact hrelease⟩
        | _ => exact ⟨_, rfl, fun full hfull => by cases hfull; exact hnew _ _⟩
      · rename_i hmajorMinor
        match hsegments : specifier.version.val.release with
        | [] => exact (hrelease hsegments).elim
        | [major] =>
            rw [release_onlyReleaseTrimmed_single hsegments] at hmajorMinor
            cases hmajorMinor
        | major :: minor :: rest =>
            cases hoperator : specifier.operator with
            | equalStar => exact (hstar (by rw [hoperator]; rfl)).elim
            | notEqualStar => exact (hstar (by rw [hoperator]; rfl)).elim
            | tildeEqual => exact (htilde hoperator).elim
            | equal => exact ⟨_, rfl, fun full hfull => by cases hfull⟩
            | exactEqual => exact ⟨_, rfl, fun full hfull => by cases hfull⟩
            | notEqual => exact ⟨_, rfl, fun full hfull => by cases hfull⟩
            | _ => exact ⟨_, rfl, fun full hfull => by cases hfull; exact hnew _ _⟩

theorem pythonVersionsSegments_isSome {versions : List ValidVersion}
    (hreleases : ∀ version ∈ versions, version.val.release ≠ []) :
    ∃ result, Edges.pythonVersionsSegments versions = some result := by
  induction versions with
  | nil => exact ⟨_, rfl⟩
  | cons first rest ih =>
      have hfirst : ∃ result, Edges.pythonVersionSegments first = some result := by
        have hrelease : (VersionSpecifier.equalsVersion
            first.onlyRelease).version.val.release ≠ [] := by
          rw [VersionSpecifier.equalsVersion, release_onlyRelease]
          exact hreleases first (by simp)
        obtain ⟨result, hresult, hfull⟩ := pythonVersionToFullVersion_isSome hrelease
        simp only [Edges.pythonVersionSegments, hresult]
        cases result with
        | error node => exact ⟨_, rfl⟩
        | ok full =>
            obtain ⟨range, hrange⟩ :=
              releaseSpecifierToRange_isSome true (hfull full rfl)
            exact ⟨_, by
              simp only [Option.bind_eq_bind, Option.bind_some, hrange]
              rfl⟩
      obtain ⟨result, hresult⟩ := hfirst
      obtain ⟨more, hmore⟩ :=
        ih fun version hmem => hreleases version (List.mem_cons_of_mem _ hmem)
      simp only [Edges.pythonVersionsSegments, hresult, hmore]
      cases result with
      | error node => exact ⟨_, rfl⟩
      | ok segments => cases more <;> exact ⟨_, rfl⟩

variable [RangeOps Text]

/-- Only a string compared with `~=` is not lowered. -/
theorem expressionEdges_isSome {expr : MarkerExpression} (hreleased : expr.Released)
    (htilde : expr.isTilde = false) :
    ∃ result, expressionEdges expr = some result := by
  cases expr with
  | version key specifier =>
      obtain ⟨edges, hedges⟩ := fromSpecifier_isSome hreleased
      cases key with
      | pythonVersion =>
          have honly : specifier.onlyRelease.version.val.release ≠ [] := by
            rw [VersionSpecifier.onlyRelease, release_onlyRelease]
            exact hreleased
          obtain ⟨result, hresult, hfull⟩ := pythonVersionToFullVersion_isSome honly
          simp only [expressionEdges, hresult]
          cases result with
          | error node => exact ⟨_, rfl⟩
          | ok full =>
              obtain ⟨edges, hedges⟩ := fromSpecifier_isSome (hfull full rfl)
              exact ⟨_, by
                simp only [Option.bind_eq_bind, Option.bind_some, hedges]
                rfl⟩
      | _ => exact ⟨_, by simp only [expressionEdges, hedges]; rfl⟩
  | versionIn key versions operator =>
      cases key with
      | pythonVersion =>
          obtain ⟨result, hresult⟩ := pythonVersionsSegments_isSome hreleased
          simp only [expressionEdges, Edges.fromPythonVersions, hresult]
          cases result <;> exact ⟨_, rfl⟩
      | _ => exact ⟨_, rfl⟩
  | string key operator value =>
      cases operator with
      | tildeEqual => cases htilde
      | _ => exact ⟨_, rfl⟩
  | list pair operator => exact ⟨_, rfl⟩
  | extra name operator => cases name <;> cases operator <;> exact ⟨_, rfl⟩

theorem expressionEdges_tilde {expr : MarkerExpression} (htilde : expr.isTilde = true) :
    expressionEdges expr = none := by
  cases expr with
  | string key operator value =>
      cases operator with
      | tildeEqual => rfl
      | _ => cases htilde
  | _ => cases htilde

end Lowering

/-! ## Typed expressions -/

/-- The action does not panic, and what it returns has the property. -/
def Yields {α : Type} (action : ReportM α) (post : α → Prop) : Prop :=
  ∀ log, ∃ result log', action.run.run log = some (result, log') ∧
    ∀ value, result = .ok value → post value

namespace Yields

variable {α β : Type} {post : α → Prop}

theorem pure {value : α} (hpost : post value) : Yields (Pure.pure value) post :=
  fun log => ⟨.ok value, log, rfl, fun _ heq => by cases heq; exact hpost⟩

theorem throw (message : String) : Yields (MonadExcept.throw message) post :=
  fun log => ⟨.error message, log, rfl, fun _ heq => by cases heq⟩

theorem bind {action : ReportM α} {next : α → ReportM β} {post' : β → Prop}
    (haction : Yields action post)
    (hnext : ∀ value, post value → Yields (next value) post') :
    Yields (action >>= next) post' := by
  intro log
  obtain ⟨result, log', hrun, hpost⟩ := haction log
  cases result with
  | error message =>
      refine ⟨.error message, log', ?_, fun _ heq => by cases heq⟩
      change Option.bind (action.run.run log) _ = _
      rw [hrun]
      rfl
  | ok value =>
      obtain ⟨result, log'', hrun', hpost'⟩ := hnext value (hpost value rfl) log'
      refine ⟨result, log'', ?_, hpost'⟩
      change Option.bind (action.run.run log) _ = _
      rw [hrun]
      exact hrun'

theorem report (kind : MarkerWarningKind) :
    Yields (Pep508.report kind) fun _ => True :=
  fun _ => ⟨_, _, rfl, fun _ _ => trivial⟩

theorem ignored (kind : MarkerWarningKind) {post : Option MarkerExpression → Prop}
    (hpost : post none) : Yields (Pep508.ignored kind) post :=
  (report kind).bind fun _ _ => pure hpost

end Yields

/-- Reading a list of versions. -/
theorem versionsLoop_spec {fuel : ℕ} {cursor : Cursor} {versions : List ValidVersion}
    (hvalid : cursor.Valid) (hfuel : cursor.chars.length < fuel)
    (hreleases : ∀ version ∈ versions, version.val.release ≠ []) :
    ∃ result, versionsLoop fuel cursor versions = some result ∧
      ∀ all, result = some all → ∀ version ∈ all, version.val.release ≠ [] := by
  induction fuel generalizing cursor versions with
  | zero => omega
  | succ fuel ih =>
      have hstart : cursor.eatWhitespace.Valid := hvalid.nextWhile
      have hstartChars : cursor.eatWhitespace.chars =
          cursor.chars.dropWhile VersionSpecifier.isWhitespace := by
        rw [Cursor.eatWhitespace, Cursor.nextWhile_eq]
      have hafter : (cursor.eatWhitespace.takeWhile
          (!VersionSpecifier.isWhitespace ·)).2.Valid := hstart.nextWhile
      have hsplit := (List.takeWhile_append_dropWhile
        (p := (!VersionSpecifier.isWhitespace ·)) (l := cursor.eatWhitespace.chars)).symm
      have hslice := hstart.slice_of_prefix hsplit
      have htake : cursor.eatWhitespace.takeWhile (!VersionSpecifier.isWhitespace ·) =
          ((cursor.eatWhitespace.pos, byteLength (cursor.eatWhitespace.chars.takeWhile
              (!VersionSpecifier.isWhitespace ·))),
            ⟨cursor.eatWhitespace.input, cursor.eatWhitespace.chars.dropWhile
              (!VersionSpecifier.isWhitespace ·), cursor.eatWhitespace.pos +
                byteLength (cursor.eatWhitespace.chars.takeWhile
                  (!VersionSpecifier.isWhitespace ·))⟩) := by
        rw [Cursor.takeWhile, Cursor.nextWhile_eq, Nat.add_sub_cancel_left]
      rw [htake] at hafter
      rw [versionsLoop, htake]
      dsimp only
      split
      · exact ⟨_, rfl, fun all heq => by cases heq; exact hreleases⟩
      · rename_i hlen
        change ∃ result, (cursor.eatWhitespace.slice _ _ >>= _) = _ ∧ _
        rw [hslice, Option.bind_eq_bind, Option.bind_some]
        cases hversion : parseVersion (cursor.eatWhitespace.chars.takeWhile
            (!VersionSpecifier.isWhitespace ·)) with
        | none => exact ⟨_, rfl, fun all heq => by cases heq⟩
        | some version =>
            refine ih hafter ?_ ?_
            · have hword : cursor.eatWhitespace.chars.takeWhile
                  (!VersionSpecifier.isWhitespace ·) ≠ [] := fun heq => by
                rw [heq] at hlen
                exact hlen rfl
              have hpos := List.length_pos_iff.mpr hword
              have hlength := congrArg List.length hsplit
              have hdrop : cursor.eatWhitespace.chars.length ≤ cursor.chars.length := by
                rw [hstartChars]
                exact (List.dropWhile_suffix _).length_le
              rw [List.length_append] at hlength
              dsimp only
              omega
            · intro v hv
              rcases List.mem_append.mp hv with hold | hnew
              · exact hreleases v hold
              · rw [List.mem_singleton.mp hnew]
                exact release_parseVersion hversion

/-- The versions of the expression, if there is one, have a release. -/
def Releases (expr : Option MarkerExpression) : Prop :=
  ∀ e, expr = some e → e.Released

theorem parseVersionInExpr_yields (key : MarkerValueVersion) (operator : MarkerOperator)
    (value : Text) : Yields (parseVersionInExpr key operator value) Releases := by
  unfold parseVersionInExpr
  cases ContainerOperator.fromMarkerOperator operator with
  | none => exact .pure fun _ heq => by cases heq
  | some operator =>
      obtain ⟨result, hresult, hreleases⟩ := versionsLoop_spec
        (Cursor.valid_new value) (Nat.lt_succ_self value.length)
        (fun version (hmem : version ∈ []) => by cases hmem)
      dsimp only
      have hlift : Yields (ExceptT.lift (StateT.lift
          (versionsLoop (value.length + 1) (Cursor.new value) [])) :
          ReportM (Option (List ValidVersion))) (· = result) := by
        intro log
        rw [hresult]
        exact ⟨.ok result, log, rfl, fun _ heq => by cases heq; rfl⟩
      refine hlift.bind fun read hread => ?_
      subst hread
      cases read with
      | none => exact .ignored _ fun _ heq => by cases heq
      | some versions =>
          refine .pure fun e heq => ?_
          cases heq
          exact hreleases versions rfl

theorem fromPattern_version {operator : Operator} {version : ValidVersion}
    {wildcard : Bool} {specifier : VersionSpecifier}
    (hbuild : VersionSpecifier.fromPattern operator version wildcard = .ok specifier) :
    specifier.version = version := by
  unfold VersionSpecifier.fromPattern at hbuild
  split at hbuild
  · split at hbuild
    · exact (VersionSpecifier.fromVersion_eq_ok hbuild).2.1
    · cases hbuild
  · exact (VersionSpecifier.fromVersion_eq_ok hbuild).2.1

theorem parseVersionExpr_yields (key : MarkerValueVersion) (operator : MarkerOperator)
    (value : Text) : Yields (parseVersionExpr key operator value) Releases := by
  have hnone : Releases none := fun _ heq => by cases heq
  unfold parseVersionExpr
  cases hpattern : parsePattern value with
  | none => exact .ignored _ hnone
  | some pattern =>
      obtain ⟨version, wildcard⟩ := pattern
      dsimp only
      cases operator.toPep440Operator with
      | none => exact .ignored _ hnone
      | some operator =>
          dsimp only
          cases hbuild : VersionSpecifier.fromPattern operator version wildcard with
          | error err => exact .ignored _ hnone
          | ok specifier =>
              refine .pure fun e heq => ?_
              cases heq
              change specifier.version.val.release ≠ []
              rw [fromPattern_version hbuild]
              exact release_parsePattern hpattern

theorem parseInvertedVersionExpr_yields (value : Text) (operator : MarkerOperator)
    (key : MarkerValueVersion) :
    Yields (parseInvertedVersionExpr value operator key) Releases := by
  have hnone : Releases none := fun _ heq => by cases heq
  unfold parseInvertedVersionExpr
  cases hversion : parseVersion value with
  | none => exact .ignored _ hnone
  | some version =>
      dsimp only
      cases operator.invert.toPep440Operator with
      | none => exact .ignored _ hnone
      | some operator =>
          dsimp only
          cases hbuild : VersionSpecifier.fromVersion operator version with
          | error err => exact .ignored _ hnone
          | ok specifier =>
              refine .pure fun e heq => ?_
              cases heq
              change specifier.version.val.release ≠ []
              rw [(VersionSpecifier.fromVersion_eq_ok hbuild).2.1]
              exact release_parseVersion hversion

theorem parseExtraExpr_yields (operator : MarkerOperator) (value : Text) :
    Yields (parseExtraExpr operator value) Releases := by
  unfold parseExtraExpr
  cases ExtraOperator.fromMarkerOperator operator with
  | none =>
      have hignored : Yields (ignored .extraInvalidComparison) Releases :=
        .ignored _ fun _ heq => by cases heq
      cases validateAndNormalize value with
      | none => exact (Yields.report _).bind fun _ _ => hignored
      | some name => exact hignored
  | some operator =>
      have hname : ∀ name, Yields
          (Pure.pure (some (MarkerExpression.extra name operator))) Releases :=
        fun name => .pure fun e heq => by cases heq; trivial
      cases validateAndNormalize value with
      | none => exact (Yields.report _).bind fun _ _ => hname _
      | some name => exact hname _

theorem listPair_yields (key : MarkerValueList) (value : Text) :
    Yields (listPair key value) fun _ => True := by
  unfold listPair
  cases validateAndNormalize value with
  | none => exact (Yields.report _).bind fun _ _ => .pure trivial
  | some name => cases key <;> exact .pure trivial

/-- Converting an expression does not panic, and its versions have a release. -/
theorem typedExpression_yields (lValue : MarkerValue) (operator : MarkerOperator)
    (rValue : MarkerValue) : Yields (typedExpression lValue operator rValue) Releases := by
  have hnone : Releases none := fun _ heq => by cases heq
  have hstring : ∀ key operator value,
      Releases (some (.string key operator value)) := fun _ _ _ e heq => by
    cases heq
    trivial
  cases lValue with
  | markerEnvVersion key =>
      cases rValue with
      | quotedString value =>
          refine (parseVersionInExpr_yields key operator value).bind fun expr hexpr => ?_
          cases expr with
          | none => exact parseVersionExpr_yields key operator value
          | some expr => exact .pure hexpr
      | _ => exact .ignored _ hnone
  | markerEnvString key =>
      cases rValue with
      | quotedString value =>
          simp only [typedExpression]
          split
          · exact .ignored _ hnone
          · exact .pure (hstring key operator value)
      | _ => exact .ignored _ hnone
  | markerEnvList key => exact .throw _
  | extra =>
      cases rValue with
      | quotedString value => exact parseExtraExpr_yields operator value
      | _ => exact .ignored _ hnone
  | quotedString lString =>
      cases rValue with
      | markerEnvVersion key => exact parseInvertedVersionExpr_yields lString operator key
      | markerEnvString key => exact .pure (hstring key operator.invert lString)
      | markerEnvList key =>
          simp only [typedExpression]
          cases ContainerOperator.fromMarkerOperator operator with
          | none => exact .throw _
          | some operator =>
              refine (listPair_yields key lString).bind fun pair _ => .pure ?_
              intro e heq
              cases heq
              trivial
      | extra => exact parseExtraExpr_yields operator lString
      | quotedString value => exact .ignored _ hnone

/-! ## Whole expressions -/

theorem typed_released {lValue rValue : MarkerValue} {operator : MarkerOperator}
    {expr : MarkerExpression} (htyped : typed lValue operator rValue = some (some expr)) :
    expr.Released := by
  obtain ⟨result, log, hrun, hpost⟩ := typedExpression_yields lValue operator rValue []
  unfold typed at htyped
  rw [hrun] at htyped
  cases result with
  | error message => cases htyped
  | ok value =>
      cases htyped
      exact hpost _ rfl expr rfl

section Expression

variable [Alphabetic]

theorem lexes_parseMarkerKeyOpValue : Lexes parseMarkerKeyOpValue lexExpression := by
  have htyped : ∀ lValue operator rValue start len, Lexes
      (ParserM.ofReport (typedExpression lValue operator rValue) start len)
      fun text => (typed lValue operator rValue).bind fun expr => some (expr, text) := by
    intro lValue operator rValue start len
    obtain ⟨result, log, hrun, -⟩ := typedExpression_yields lValue operator rValue []
    refine (Lexes.ofReport start len ⟨_, hrun⟩).congr fun text => ?_
    rw [typed, hrun]
    cases result <;> rfl
  refine (Lexes.eatWhitespace.bind fun _ => .look fun start =>
    lexes_parseMarkerValue.bind fun lValue => Lexes.eatWhitespace.bind fun _ =>
      lexes_parseMarkerOperator.bind fun operator => Lexes.eatWhitespace.bind fun _ =>
        lexes_parseMarkerValue.bind fun rValue => .look fun stop =>
          htyped lValue operator rValue start (stop - start)).congr fun text => ?_
  simp only [lexExpression, Option.bind_some, Option.bind_eq_bind]

theorem lexExpression_released {text rest : Text} {expr : MarkerExpression}
    (hlex : lexExpression text = some (some expr, rest)) : expr.Released := by
  simp only [lexExpression, Option.bind_eq_bind, Option.bind_eq_some_iff] at hlex
  obtain ⟨_, -, _, -, _, -, _, htyped, heq⟩ := hlex
  cases heq
  exact typed_released htyped

end Expression

end Uv.Pep508
