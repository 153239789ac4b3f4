import Uv.Core.Moving
import Uv.Pep508.RequirementRuns

/-!
# Runs only add to the interner

Nodes are added to the table and never taken out, also by a text that cannot be read.  What
stands before the marker of a requirement does not get to the interner at all.
-/

set_option linter.unusedSectionVars false

namespace Uv.Pep508

open Uv.Core Uv.Pep440
open Interner RequirementM

section Growth

variable [RangeOps ValidVersion] [RangeOps Text]

/-! ## The interner -/

section Edges

variable {σ : Type} {R : σ → σ → Prop} [IsPreorder σ R]

theorem Edges.map_moves {f : NodeId → StateT σ Option NodeId} (hf : ∀ id, Moves R (f id))
    (edges : Edges) (parent : NodeId) : Moves R (edges.map parent f) := by
  have hranges : ∀ {T : Type} (edges : List (Ranges T × NodeId)),
      Moves R (mapRanges edges parent f) :=
    fun edges => .mapM (fun _ => (hf _).bind fun _ => .pure _) edges
  cases edges with
  | version edges => exact (hranges edges).bind fun _ => .pure _
  | string edges => exact (hranges edges).bind fun _ => .pure _
  | boolean high low => exact (hf _).bind fun _ => (hf _).bind fun _ => .pure _

variable {f : NodeId → NodeId → StateT σ Option NodeId}

theorem Edges.applyRight_moves {T : Type} [OrdKey T] [RangeOps T]
    (hf : ∀ xi yi, Moves R (f xi yi)) (range : Ranges T) (child parent : NodeId)
    (edges combined : List (Ranges T × NodeId)) :
    Moves R (applyRight f range child parent edges combined) := by
  induction edges generalizing combined with
  | nil => exact .pure _
  | cons edge rest ih =>
      rw [applyRight]
      split
      · exact ih _
      · exact (hf _ _).bind fun _ => ih _

theorem Edges.applyRanges_moves {T : Type} [OrdKey T] [RangeOps T]
    (hf : ∀ xi yi, Moves R (f xi yi)) (edges : List (Ranges T × NodeId)) (parent : NodeId)
    (rightEdges : List (Ranges T × NodeId)) (rightParent : NodeId) :
    Moves R (applyRanges edges parent rightEdges rightParent f) := by
  have hleft : ∀ combined, Moves R (applyLeft f parent rightEdges rightParent edges combined) := by
    induction edges with
    | nil => exact fun _ => .pure _
    | cons edge rest ih =>
        exact fun _ => (applyRight_moves hf _ _ _ _ _).bind fun combined => ih combined
  exact hleft []

theorem Edges.apply_moves (hf : ∀ xi yi, Moves R (f xi yi)) (edges : Edges) (parent : NodeId)
    (rightEdges : Edges) (rightParent : NodeId) :
    Moves R (edges.apply parent rightEdges rightParent f) := by
  rw [Edges.apply.eq_def]
  split
  · exact (applyRanges_moves hf _ _ _ _).bind fun _ => .pure _
  · exact (applyRanges_moves hf _ _ _ _).bind fun _ => .pure _
  · exact (hf _ _).bind fun _ => (hf _ _).bind fun _ => .pure _
  · exact .failure

end Edges

theorem createNode_grows (var : Variable) (children : Edges) :
    Moves (· ≤ ·) (createNode var children) := by
  intro s id s' hrun
  change createNode var children s = some (id, s') at hrun
  rw [createNode] at hrun
  split at hrun
  · cases hrun
  · rename_i first _ _
    dsimp only at hrun
    generalize (if first.isComplement = true then Node.not ⟨var, children⟩
      else ⟨var, children⟩) = node at hrun
    generalize (if first.isComplement = true then first.not else first) = child at hrun
    by_cases hall : node.children.nodes.all (· == child) = true
    · rw [if_pos hall] at hrun
      cases hrun
      exact le_rfl
    · rw [if_neg hall] at hrun
      split at hrun
      · cases hrun
        exact le_rfl
      · cases hrun
        exact ⟨List.prefix_append _ _, fun _ h => h⟩

theorem expression_grows (expr : MarkerExpression) : Moves (· ≤ ·) (expression expr) := by
  rw [expression]
  split
  · exact .failure
  · exact .pure _
  · exact createNode_grows _ _

theorem readNode_grows (id : NodeId) : Moves (· ≤ ·) (readNode id) := by
  intro s node s' hrun
  obtain ⟨_, _, hpair⟩ := Option.map_eq_some_iff.mp hrun
  cases hpair
  exact le_rfl

theorem memoize_grows (xi yi result : NodeId) : Moves (· ≤ ·) (memoize xi yi result) := by
  intro s id s' hrun
  cases hrun
  exact ⟨List.prefix_refl _, fun _ h => h⟩

theorem combine_grows {finish : Node → Node → NodeId → InternerM NodeId}
    (hfinish : ∀ x y node, Moves (· ≤ ·) (finish x y node)) (fuel : ℕ) (xi yi : NodeId) :
    Moves (· ≤ ·) (combine finish fuel xi yi) := by
  induction fuel generalizing xi yi with
  | zero => exact .failure
  | succ fuel ih =>
      have hexpand : ∀ x y, Moves (· ≤ ·) (expand (combine finish fuel) xi yi x y) := by
        intro x y
        rw [expand]
        split
        · exact (Edges.map_moves (fun _ => ih _ _) _ _).bind fun _ => .pure _
        · exact (Edges.map_moves (fun _ => ih _ _) _ _).bind fun _ => .pure _
        · exact (Edges.apply_moves ih _ _ _ _).bind fun _ => .pure _
      rw [combine]
      split_ifs
      · exact .pure _
      · exact .pure _
      · exact .pure _
      · exact .pure _
      · exact .pure _
      · apply Moves.get_bind
        intro s
        split
        · exact .pure _
        · exact (readNode_grows xi).bind fun x => (readNode_grows yi).bind fun y =>
            (hexpand x y).bind fun _ => (createNode_grows _ _).bind fun node =>
              (hfinish x y node).bind fun _ => memoize_grows _ _ _

theorem conjunction_grows (xi yi : NodeId) : Moves (· ≤ ·) (conjunction xi yi) :=
  combine_grows (fun _ _ _ => .pure _) _ _ _

/-- The table keeps every node. -/
def NodesLe (s s' : Interner) : Prop := s.nodes <+: s'.nodes

instance nodesLePreorder : IsPreorder Interner NodesLe where
  refl _ := List.prefix_refl _
  trans _ _ _ hle hle' := List.IsPrefix.trans hle hle'

theorem equals_nodes (key : MarkerValueString) (value : String) :
    Moves NodesLe (equals key value) :=
  (expression_grows _).mono fun _ _ hle => hle.1

theorem conjunction_nodes (xi yi : NodeId) : Moves NodesLe (conjunction xi yi) :=
  (conjunction_grows xi yi).mono fun _ _ hle => hle.1

/-- The exclusions are set where there are none. -/
theorem exclusions_grows : Moves (· ≤ ·) exclusions := by
  intro s tree s' hrun
  cases hexclusions : s.exclusions with
  | some known =>
      rw [exclusions, StateT.run_bind, StateT.run_get, Option.pure_def, Option.bind_eq_bind,
        Option.bind_some, hexclusions] at hrun
      cases hrun
      exact le_rfl
  | none =>
      suffices hnodes : Moves NodesLe exclusions from
        ⟨hnodes s tree s' hrun, by simp [hexclusions]⟩
      apply Moves.get_bind
      intro s
      split
      · exact .pure _
      · repeat
          apply Moves.bind (equals_nodes _ _)
          intro _
        apply Moves.bind
        · exact .foldlM (fun _ _ => (conjunction_nodes _ _).bind fun _ =>
            (conjunction_nodes _ _).bind fun _ => .pure _) _ _
        · intro tree
          refine Moves.bind ?_ fun _ => .pure _
          intro s _ s' hrun
          cases hrun
          exact List.prefix_refl _

theorem checkExclusions_grows (x y : Node) (node : NodeId) :
    Moves (· ≤ ·) (checkExclusions x y node) := by
  rw [checkExclusions]
  split
  · apply exclusions_grows.bind
    intro exclusions
    apply Moves.get_bind
    intro s
    split
    · exact .failure
    · exact .pure _
    · exact .pure _
  · exact .pure _

theorem and_grows (xi yi : NodeId) : Moves (· ≤ ·) (Uv.Pep508.and xi yi) :=
  combine_grows checkExclusions_grows _ _ _

theorem or_grows (xi yi : NodeId) : Moves (· ≤ ·) (Uv.Pep508.or xi yi) :=
  (and_grows _ _).bind fun _ => .pure _

/-! ## The parser of markers -/

variable [Alphabetic]

/-- The interner is not touched. -/
def SameInterner (s s' : ParserState) : Prop := s'.interner = s.interner

instance sameInternerPreorder : IsPreorder ParserState SameInterner where
  refl _ := rfl
  trans _ _ _ hsame hsame' := Eq.trans hsame' hsame

/-- The interner is only added to. -/
def Adds (s s' : ParserState) : Prop := s.interner ≤ s'.interner

instance addsPreorder : IsPreorder ParserState Adds where
  refl s := le_refl s.interner
  trans _ _ _ hle hle' := show (_ : Interner) ≤ _ from le_trans hle hle'

theorem SameInterner.adds (s s' : ParserState) (hsame : SameInterner s s') : Adds s s' :=
  le_of_eq hsame.symm

section Markers

variable {α : Type}

theorem onCursor_same (f : Cursor → α × Cursor) : Moves SameInterner (ParserM.onCursor f).run := by
  intro s _ s' hrun
  cases hrun
  rfl

theorem slice_same (start len : ℕ) : Moves SameInterner (ParserM.slice start len).run := by
  intro s _ s' hrun
  obtain ⟨_, _, hpair⟩ := Option.map_eq_some_iff.mp hrun
  cases hpair
  rfl

theorem parserFail_same (message : String) (start len : ℕ) :
    Moves SameInterner (ParserM.fail message start len : ParserM α).run := by
  intro s _ s' hrun
  cases hrun
  rfl

theorem ofReport_same (action : ReportM α) (start len : ℕ) :
    Moves SameInterner (ParserM.ofReport action start len).run := by
  intro s _ s' hrun
  obtain ⟨_, _, hpair⟩ := Option.map_eq_some_iff.mp hrun
  cases hpair
  rfl

theorem ofInterner_adds {action : InternerM α} (haction : Moves (· ≤ ·) action) :
    Moves Adds (ParserM.ofInterner action).run := by
  intro s _ s' hrun
  obtain ⟨⟨_, interner⟩, hfirst, hpair⟩ := Option.map_eq_some_iff.mp hrun
  cases hpair
  exact haction _ _ _ hfirst

theorem nextExpectChar_same (expected : Char) (spanStart : ℕ) :
    Moves SameInterner (ParserM.nextExpectChar expected spanStart).run := by
  refine .runBind (onCursor_same _) fun next => ?_
  split
  · exact parserFail_same _ _ _
  · split
    · exact .runPure _
    · exact parserFail_same _ _ _

theorem parseNotIn_same : Moves SameInterner parseNotIn.run := by
  refine .runBind (onCursor_same _) fun next => ?_
  split
  · exact .runBind (onCursor_same _) fun _ => parserFail_same _ _ _
  · split
    · exact .runBind (onCursor_same _) fun _ => .runBind (onCursor_same _) fun _ =>
        .runBind (nextExpectChar_same _ _) fun _ => .runBind (onCursor_same _) fun _ =>
          .runBind (nextExpectChar_same _ _) fun _ => .runPure _
    · exact parserFail_same _ _ _

theorem parseMarkerOperator_same : Moves SameInterner parseMarkerOperator.run := by
  refine .runBind (onCursor_same _) fun first => .runBind (onCursor_same _) fun span =>
    .runBind (slice_same _ _) fun operator => ?_
  split
  · exact parseNotIn_same
  · split
    · exact .runPure _
    · exact parserFail_same _ _ _

theorem parseMarkerValue_same : Moves SameInterner parseMarkerValue.run := by
  refine .runBind (onCursor_same _) fun first => ?_
  split
  · exact .runBind (onCursor_same _) fun _ => parserFail_same _ _ _
  · split
    · exact .runBind (onCursor_same _) fun _ => .runBind (onCursor_same _) fun _ =>
        .runBind (slice_same _ _) fun _ => .runBind (nextExpectChar_same _ _) fun _ => .runPure _
    · refine .runBind (onCursor_same _) fun span => .runBind (slice_same _ _) fun key => ?_
      split
      · exact .runBind (ofReport_same _ _ _) fun _ => .runPure _
      · exact parserFail_same _ _ _

theorem parseMarkerKeyOpValue_same : Moves SameInterner parseMarkerKeyOpValue.run :=
  .runBind (onCursor_same _) fun _ => .runBind (onCursor_same _) fun _ =>
    .runBind parseMarkerValue_same fun _ => .runBind (onCursor_same _) fun _ =>
      .runBind parseMarkerOperator_same fun _ => .runBind (onCursor_same _) fun _ =>
        .runBind parseMarkerValue_same fun _ => .runBind (onCursor_same _) fun _ =>
          ofReport_same _ _ _

theorem onCursor_adds (f : Cursor → α × Cursor) : Moves Adds (ParserM.onCursor f).run :=
  (onCursor_same f).mono SameInterner.adds

variable {apply : NodeId → NodeId → InternerM NodeId} {parseInner : ParserM (Option NodeId)}

theorem parseMarkerOpLoop_adds (op : Text) (happly : ∀ xi yi, Moves (· ≤ ·) (apply xi yi))
    (hinner : Moves Adds parseInner.run) (fuel : ℕ) (tree : Option NodeId) :
    Moves Adds (parseMarkerOpLoop op apply parseInner fuel tree).run := by
  induction fuel generalizing tree with
  | zero => exact .failure
  | succ fuel ih =>
      refine .runBind (onCursor_adds _) fun _ => .runBind (onCursor_adds _) fun span =>
        .runBind ((slice_same _ _).mono SameInterner.adds) fun value => ?_
      split
      · refine .runBind (onCursor_adds _) fun _ => .runBind hinner fun expression => ?_
        split
        · refine .runBind (ofInterner_adds ?_) fun tree => ih (some tree)
          cases tree with
          | none => exact .pure _
          | some tree => exact happly tree _
        · exact ih tree
      · exact .runPure _

theorem parseMarkerOp_adds (op : Text) (happly : ∀ xi yi, Moves (· ≤ ·) (apply xi yi))
    (hinner : Moves Adds parseInner.run) :
    Moves Adds (parseMarkerOp op apply parseInner).run :=
  .runBind hinner fun _ => .runBind (onCursor_adds _) fun _ =>
    parseMarkerOpLoop_adds op happly hinner _ _

theorem parseMarkerExpr_adds (hinner : Moves Adds parseInner.run) :
    Moves Adds (parseMarkerExpr parseInner).run := by
  refine .runBind (onCursor_adds _) fun _ => .runBind (onCursor_adds _) fun start => ?_
  split
  · exact .runBind hinner fun _ =>
      .runBind ((nextExpectChar_same _ _).mono SameInterner.adds) fun _ => .runPure _
  · refine .runBind (parseMarkerKeyOpValue_same.mono SameInterner.adds) fun expr => ?_
    split
    · exact .runBind (ofInterner_adds (expression_grows _)) fun _ => .runPure _
    · exact .runPure _

theorem parseMarkerOr_adds (fuel : ℕ) : Moves Adds (parseMarkerOr fuel).run := by
  induction fuel with
  | zero => exact .failure
  | succ fuel ih =>
      exact parseMarkerOp_adds _ or_grows (parseMarkerOp_adds _ and_grows (parseMarkerExpr_adds ih))

/-- A text adds to the interner, also if it is no marker. -/
theorem parseMarkersCursor_adds : Moves Adds parseMarkersCursor.run := by
  refine .runBind (onCursor_adds _) fun _ => .runBind (parseMarkerOr_adds _) fun _ =>
    .runBind (onCursor_adds _) fun _ => .runBind (onCursor_adds _) fun next => ?_
  split
  · exact .runBind (onCursor_adds _) fun _ =>
      (parserFail_same _ _ _).mono SameInterner.adds
  · exact .runPure _

end Markers

/-! ## The parser of requirements -/

section Requirements

variable {Url UrlError α : Type} {R : ParserState → ParserState → Prop}

theorem read_moves {action : ParserM α} (haction : Moves R action.run) :
    Moves R (read action : RequirementM UrlError α).run := by
  intro s _ s' hrun
  obtain ⟨⟨result, _⟩, hfirst, hpair⟩ := Option.map_eq_some_iff.mp hrun
  cases hpair
  exact haction s result _ hfirst

theorem cursor_same (f : Cursor → α × Cursor) :
    Moves SameInterner (read (ParserM.onCursor f) : RequirementM UrlError α).run :=
  read_moves (onCursor_same f)

theorem sliced_same (start len : ℕ) :
    Moves SameInterner (read (ParserM.slice start len) : RequirementM UrlError Text).run :=
  read_moves (slice_same start len)

theorem fail_same (message : Pep508ErrorSource UrlError) (start len : ℕ) :
    Moves SameInterner (fail message start len : RequirementM UrlError α).run := by
  intro s _ s' hrun
  cases hrun
  rfl

theorem unwrap_same (value : Option α) :
    Moves SameInterner (unwrap value : RequirementM UrlError α).run := by
  cases value with
  | none => exact .failure
  | some value => exact .runPure _

variable (expandEnvVars : Text → Text) (parseUrl : Text → Except UrlError Url)

theorem failUnnamed_same (pos : ℕ) (unnamed message : String) (start len : ℕ) :
    Moves SameInterner
      (failUnnamed expandEnvVars pos unnamed message start len : RequirementM UrlError α).run := by
  refine .runBind (cursor_same _) fun _ => .runBind (unwrap_same _) fun _ =>
    .runBind (unwrap_same _) fun looks => ?_
  dsimp only
  split
  · exact fail_same _ _ _
  · exact fail_same _ _ _

theorem parseName_same :
    Moves SameInterner (parseName expandEnvVars : RequirementM UrlError Text).run := by
  refine .runBind (cursor_same _) fun _ => .runBind (cursor_same _) fun next => ?_
  split
  · exact fail_same _ _ _
  · split
    · exact failUnnamed_same _ _ _ _ _ _
    · refine .runBind (cursor_same _) fun _ => .runBind (cursor_same _) fun _ =>
        .runBind (sliced_same _ _) fun _ => .runBind (unwrap_same _) fun _ => ?_
      split
      · exact fail_same _ _ _
      · exact unwrap_same _

theorem parseExtra_same (bracketPos : ℕ) :
    Moves SameInterner (parseExtra bracketPos : RequirementM UrlError Text).run := by
  refine .runBind (cursor_same _) fun _ => .runBind (cursor_same _) fun next => ?_
  split
  · exact fail_same _ _ _
  · split
    · exact fail_same _ _ _
    · have hend : ∀ buffer : Text, Moves SameInterner (do
          read ParserM.eatWhitespace
          unwrap (validateAndNormalize buffer) : RequirementM UrlError Text).run :=
        fun buffer => .runBind (cursor_same _) fun _ => unwrap_same _
      refine .runBind (cursor_same _) fun _ => .runBind (sliced_same _ _) fun buffer =>
        .runBind (cursor_same _) fun other => ?_
      split
      · split
        · exact .runBind (fail_same _ _ _) fun _ => hend _
        · exact hend _
      · exact hend _

theorem parseExtrasLoop_same (bracketPos fuel : ℕ) (isFirstIteration : Bool)
    (extras : List Text) :
    Moves SameInterner
      (parseExtrasLoop bracketPos fuel isFirstIteration extras : RequirementM UrlError _).run := by
  induction fuel generalizing isFirstIteration extras with
  | zero => exact .failure
  | succ fuel ih =>
      have hextra : Moves SameInterner (do
          let extra ← parseExtra bracketPos
          parseExtrasLoop bracketPos fuel false (extras ++ [extra]) :
            RequirementM UrlError (List Text)).run :=
        .runBind (parseExtra_same bracketPos) fun _ => ih _ _
      refine .runBind (cursor_same _) fun next => ?_
      split
      · split
        · exact .runBind (cursor_same _) fun _ => .runPure _
        · split
          · exact fail_same _ _ _
          · split
            · exact fail_same _ _ _
            · split
              · exact .runBind (cursor_same _) fun _ => hextra
              · exact hextra
      · exact hextra

theorem parseExtrasCursor_same :
    Moves SameInterner (parseExtrasCursor : RequirementM UrlError (List Text)).run := by
  refine .runBind (cursor_same _) fun start => ?_
  split
  · exact .runPure _
  · exact .runBind (cursor_same _) fun _ => .runBind (cursor_same _) fun _ =>
      parseExtrasLoop_same _ _ _ _

theorem parseUrlCursor_same :
    Moves SameInterner (parseUrlCursor parseUrl : RequirementM UrlError Url).run := by
  refine .runBind (cursor_same _) fun _ => .runBind (cursor_same _) fun _ =>
    .runBind (cursor_same _) fun _ => .runBind (sliced_same _ _) fun url => ?_
  split
  · exact fail_same _ _ _
  · split
    · exact fail_same _ _ _
    · exact .runPure _

theorem parseSpecifier_same (buffer : Text) (start last : ℕ) :
    Moves SameInterner (parseSpecifier buffer start last : RequirementM UrlError _).run := by
  rw [parseSpecifier]
  split
  · exact fail_same _ _ _
  · exact .runPure _

theorem specifiersLoop_same (fuel start : ℕ) (buffer : Text)
    (specifiers : List VersionSpecifier) :
    Moves SameInterner
      (specifiersLoop fuel start buffer specifiers : RequirementM UrlError _).run := by
  induction fuel generalizing start buffer specifiers with
  | zero => exact .failure
  | succ fuel ih =>
      refine .runBind (cursor_same _) fun next => ?_
      split
      · exact .runBind (cursor_same _) fun _ => .runBind (parseSpecifier_same _ _ _) fun _ =>
          .runPure _
      · split
        · exact .runBind (parseSpecifier_same _ _ _) fun _ => .runPure _
        · split
          · exact .runBind (parseSpecifier_same _ _ _) fun _ => .runBind (cursor_same _) fun _ =>
              ih _ _ _
          · exact .runBind (cursor_same _) fun _ => ih _ _ _

theorem parenthesesLoop_same (bracePos fuel start : ℕ) (buffer : Text)
    (specifiers : List VersionSpecifier) :
    Moves SameInterner
      (parenthesesLoop bracePos fuel start buffer specifiers : RequirementM UrlError _).run := by
  induction fuel generalizing start buffer specifiers with
  | zero => exact .failure
  | succ fuel ih =>
      refine .runBind (cursor_same _) fun next => ?_
      split
      · exact fail_same _ _ _
      · split
        · exact .runBind (parseSpecifier_same _ _ _) fun _ => ih _ _ _
        · split
          · exact .runBind (parseSpecifier_same _ _ _) fun _ => .runPure _
          · exact ih _ _ _

theorem parseVersionOrUrl_same (start : ℕ) :
    Moves SameInterner (parseVersionOrUrl expandEnvVars parseUrl start).run := by
  refine .runBind (cursor_same _) fun next => ?_
  split
  · exact .runPure _
  · split
    · exact .runBind (cursor_same _) fun _ => .runMap _ (parseUrlCursor_same parseUrl)
    · split
      · exact .runMap _ (.runBind (cursor_same _) fun _ => .runBind (cursor_same _) fun _ =>
          .runBind (cursor_same _) fun _ => .runBind (cursor_same _) fun _ =>
            .runBind (cursor_same _) fun _ => .runMap _ (parenthesesLoop_same _ _ _ _ _))
      · split
        · exact .runMap _ (.runBind (cursor_same _) fun _ => .runBind (cursor_same _) fun _ =>
            .runMap _ (specifiersLoop_same _ _ _ _))
        · split
          · exact .runPure _
          · exact failUnnamed_same _ _ _ _ _ _

/-- What stands before the marker does not get to the interner. -/
theorem parseHead_same : Moves SameInterner (parseHead expandEnvVars parseUrl).run := by
  refine .runBind (cursor_same _) fun start => .runBind (cursor_same _) fun _ =>
    .runBind (cursor_same _) fun _ => .runBind (parseName_same expandEnvVars) fun name =>
      .runBind (cursor_same _) fun _ => .runBind (cursor_same _) fun _ =>
        .runBind parseExtrasCursor_same fun extras => .runBind (cursor_same _) fun _ =>
          .runBind (parseVersionOrUrl_same expandEnvVars parseUrl start) fun kind => ?_
  split
  · refine .runBind (sliced_same _ _) fun _ => ?_
    split
    · exact .runBind (cursor_same _) fun _ => .runBind (unwrap_same _) fun _ => fail_same _ _ _
    · exact .runPure _
  · exact .runPure _

theorem parseRequirementEnd_same (name : Text) (extras : List Text)
    (versionOrUrl : Option (VersionOrUrl Url)) (marker : Option NodeId) :
    Moves SameInterner (parseRequirementEnd name extras versionOrUrl marker :
      RequirementM UrlError (Requirement Url)).run := by
  refine .runBind (cursor_same _) fun _ => .runBind (cursor_same _) fun next => ?_
  split
  · split
    · exact fail_same _ _ _
    · exact .runPure _
  · exact .runPure _

theorem parseQuotedMarker_adds :
    Moves Adds (parseQuotedMarker : RequirementM UrlError (Option NodeId)).run := by
  refine .runBind ((cursor_same _).mono SameInterner.adds) fun _ =>
    .runBind ((cursor_same _).mono SameInterner.adds) fun next => ?_
  split
  · exact .runBind ((cursor_same _).mono SameInterner.adds) fun _ =>
      read_moves parseMarkersCursor_adds
  · exact .runPure _

theorem parsePep508Requirement_adds :
    Moves Adds (parsePep508Requirement expandEnvVars parseUrl).run :=
  .runBind ((parseHead_same expandEnvVars parseUrl).mono SameInterner.adds) fun _ =>
    .runBind parseQuotedMarker_adds fun _ =>
      (parseRequirementEnd_same _ _ _ _).mono SameInterner.adds

/-! ## Soundness -/

variable {below : Variable → Variable → Prop} {s s' : ParserState}

theorem parseQuotedMarker_sound {result : Except (RequirementError UrlError) (Option NodeId)}
    (hready : Ready below s)
    (hreturns : (parseQuotedMarker : RequirementM UrlError _).Returns s result s') :
    Sound below s'.interner := by
  cases hmarker : markerAfter s.cursor.chars with
  | none =>
      obtain ⟨s₁, hreturns₁, hafter⟩ := parseQuotedMarker_none UrlError hready.cursor hmarker
      obtain ⟨_, rfl⟩ := hreturns₁.unique hreturns
      rw [hafter.interner]
      exact hready.sound
  | some marker =>
      obtain ⟨s₁, hrun, hafter⟩ :=
        parseQuotedMarker_run UrlError hready.cursor (trim_of_markerAfter hmarker)
      have hready₁ : Ready below s₁ := ⟨hafter.valid, by rw [hafter.interner]; exact hready.sound⟩
      rw [RunM.Returns, hrun] at hreturns
      obtain ⟨⟨_, s₂⟩, hexec, hpair⟩ := Option.map_eq_some_iff.mp hreturns
      cases hpair
      cases parseMarkersCursor_follows hready₁ with
      | panic hpanic =>
          rw [hpanic] at hexec
          cases hexec
      | error herror hsound =>
          rw [herror] at hexec
          cases hexec
          exact hsound
      | ok hok hready₂ =>
          rw [hok] at hexec
          cases hexec
          exact hready₂.sound

theorem parsePep508Requirement_sound
    {result : Except (RequirementError UrlError) (Requirement Url)} (hready : Ready below s)
    (hreturns : (parsePep508Requirement expandEnvVars parseUrl).Returns s result s') :
    Sound below s'.interner := by
  rcases RunM.returns_bind.mp hreturns with ⟨e, hhead, _⟩ | ⟨head, s₁, hhead, hrest⟩
  · have hsame : s'.interner = s.interner := parseHead_same expandEnvVars parseUrl s _ s' hhead
    rw [hsame]
    exact hready.sound
  · have hready₁ : Ready below s₁ := by
      have htracks : Tracks (parseHead expandEnvVars parseUrl) s (fun _ _ => True)
          (readHead parseUrl s.cursor.chars) := parseHead_tracks hready.cursor
      generalize readHead parseUrl s.cursor.chars = reading at htracks
      cases htracks with
      | panic hpanic =>
          rw [RunM.Returns, hpanic] at hhead
          cases hhead
      | error hreturns' =>
          obtain ⟨hresult, _⟩ := hreturns'.unique hhead
          cases hresult
      | ok hreturns' _ hafter =>
          obtain ⟨_, rfl⟩ := hreturns'.unique hhead
          exact ⟨hafter.valid, by rw [hafter.interner]; exact hready.sound⟩
    rcases RunM.returns_bind.mp hrest with ⟨e, hmarker, _⟩ | ⟨marker, s₂, hmarker, hend⟩
    · exact parseQuotedMarker_sound hready₁ hmarker
    · have hsame : s'.interner = s₂.interner := parseRequirementEnd_same _ _ _ _ s₂ _ s' hend
      rw [hsame]
      exact parseQuotedMarker_sound hready₁ hmarker

/-- A run on a requirement leaves the interner sound and only adds to it, also if it fails. -/
theorem Requirement.fromStr_allows {s : Interner} (hsound : Sound below s) (text : Text) :
    Allows (Sound below) (Requirement.fromStr expandEnvVars parseUrl text) s fun _ _ => True := by
  intro result s' hrun
  obtain ⟨⟨_, state⟩, hreturns, hpair⟩ := Option.map_eq_some_iff.mp hrun
  cases hpair
  refine ⟨?_, ?_, trivial⟩
  · exact parsePep508Requirement_sound expandEnvVars parseUrl
      ⟨Cursor.valid_new text, hsound⟩ hreturns
  · exact parsePep508Requirement_adds expandEnvVars parseUrl _ _ _ hreturns

end Requirements

end Growth

end Uv.Pep508
