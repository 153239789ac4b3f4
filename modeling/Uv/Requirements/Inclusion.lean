import Uv.Requirements.Parse

/-!
# Recursive inclusions

A path is included once for either mode, so whether parsing ends and reads every file once
depends on whether a file is reached by several paths.  The file at the start is not among
the included paths.

A run is described by the paths it includes: they are reached from the file, what is read is
what they denote, and if there is no error they include everything that is reached.
-/

set_option linter.unusedSectionVars false

namespace Uv.Requirements

open Uv.Core Relation

variable {Requirement Url : Type} {fs : FileSystem (Content Requirement Url)}
  {workingDir : PathBuf} {origin pair pair' : Mode × PathBuf} {s s' s₁ : VisitedFiles}

/-! ## Inclusions -/

/-- The inclusion that a statement makes. -/
def inclusion (mode : Mode) (requirementsDir : PathBuf) :
    Except RequirementsTxtParserError (RequirementsTxtStatement Requirement Url) →
      Option (Mode × PathBuf)
  | .ok (.requirements filename) => some (mode, requirementsDir.join filename)
  | .ok (.constraint filename) => some (.constraints, requirementsDir.join filename)
  | _ => none

/-- The file at a path includes a path. -/
def Includes (fs : FileSystem (Content Requirement Url)) (workingDir : PathBuf)
    (pair pair' : Mode × PathBuf) : Prop :=
  ∃ file content, fs.locate pair.2 = some (file, content) ∧ ∃ statement ∈ content,
    inclusion pair.1 (pair.2.parent.getD workingDir) statement = some pair'

/-- The inclusions that are reached from a file. -/
abbrev Reached (fs : FileSystem (Content Requirement Url)) (workingDir : PathBuf) :
    Mode × PathBuf → Mode × PathBuf → Prop :=
  TransGen (Includes fs workingDir)

/-- The file that an included path denotes, with the mode. -/
def reading (fs : FileSystem (Content Requirement Url)) (pair : Mode × PathBuf) :
    Option (Mode × List String) :=
  (fs.locate pair.2).map fun found => (pair.1, found.1)

/-- Everything that is included from the path is included. -/
def Closed (fs : FileSystem (Content Requirement Url)) (workingDir : PathBuf)
    (s : VisitedFiles) (pair : Mode × PathBuf) : Prop :=
  ∀ pair', Includes fs workingDir pair pair' → pair' ∈ s.included

/-- From one state to another, new paths were included that are reached from a path. -/
structure Explored (fs : FileSystem (Content Requirement Url)) (workingDir : PathBuf)
    (origin : Mode × PathBuf) (s s' : VisitedFiles) (new : List (Mode × PathBuf)) : Prop where
  included : s'.included = s.included ++ new
  reads : s'.reads = s.reads ++ new.filterMap (reading fs)
  nodup : s.included.Nodup → s'.included.Nodup
  reached : ∀ pair ∈ new, Reached fs workingDir origin pair

theorem Explored.refl : Explored fs workingDir origin s s [] where
  included := by simp
  reads := by simp
  nodup := id
  reached := by simp

theorem Explored.trans {new new' : List (Mode × PathBuf)}
    (hnew : Explored fs workingDir origin s s₁ new)
    (hnew' : Explored fs workingDir origin s₁ s' new') :
    Explored fs workingDir origin s s' (new ++ new') where
  included := by rw [hnew'.included, hnew.included, List.append_assoc]
  reads := by rw [hnew'.reads, hnew.reads, List.filterMap_append, List.append_assoc]
  nodup hnodup := hnew'.nodup (hnew.nodup hnodup)
  reached pair hpair := (List.mem_append.mp hpair).elim (hnew.reached pair) (hnew'.reached pair)

theorem Explored.subset {new : List (Mode × PathBuf)}
    (hnew : Explored fs workingDir origin s s' new) : s.included ⊆ s'.included := by
  rw [hnew.included]
  exact List.subset_append_left _ _

theorem Closed.mono (hclosed : Closed fs workingDir s pair)
    (hsubset : s.included ⊆ s'.included) : Closed fs workingDir s' pair :=
  fun pair' hincludes => hsubset (hclosed pair' hincludes)

/-! ## What a run includes -/

section Runs

variable {parse : Mode → PathBuf → ParseM (RequirementsTxt Requirement Url)}
  {result : Except RequirementsTxtParserError (RequirementsTxt Requirement Url)}

/-- What parsing the file at a path does: it is read, and paths that are reached from it are
included. -/
structure Parsed (fs : FileSystem (Content Requirement Url)) (workingDir : PathBuf)
    (origin : Mode × PathBuf) (s s' : VisitedFiles)
    (result : Except RequirementsTxtParserError (RequirementsTxt Requirement Url))
    (new : List (Mode × PathBuf)) : Prop where
  included : s'.included = s.included ++ new
  reads : s'.reads = s.reads ++ (origin :: new).filterMap (reading fs)
  nodup : s.included.Nodup → s'.included.Nodup
  reached : ∀ pair ∈ new, Reached fs workingDir origin pair
  closed : ∀ data, result = .ok data → ∀ pair ∈ origin :: new, Closed fs workingDir s' pair

/-- The new paths are reached; without an error the given ones are included and the new ones
are closed. -/
structure Covered (fs : FileSystem (Content Requirement Url)) (workingDir : PathBuf)
    (origin : Mode × PathBuf) (pairs : Set (Mode × PathBuf)) (s s' : VisitedFiles)
    (result : Except RequirementsTxtParserError (RequirementsTxt Requirement Url))
    (new : List (Mode × PathBuf)) : Prop where
  explored : Explored fs workingDir origin s s' new
  included : ∀ data, result = .ok data → ∀ pair ∈ pairs, pair ∈ s'.included
  closed : ∀ data, result = .ok data → ∀ pair ∈ new, Closed fs workingDir s' pair

theorem returns_ofExcept {outcome : Except RequirementsTxtParserError
    (RequirementsTxt Requirement Url)} (h : (ofExcept outcome).Returns s result s') :
    result = outcome ∧ s' = s := by
  cases outcome with
  | ok data => exact RunM.returns_pure.mp h
  | error error => exact RunM.returns_throw.mp h

theorem includeFile_returns {mode : Mode} {subFile : PathBuf}
    {data : RequirementsTxt Requirement Url}
    {merge : RequirementsTxt Requirement Url →
      Except RequirementsTxtParserError (RequirementsTxt Requirement Url)}
    (hparse : ∀ {s result s'}, (parse mode subFile).Returns s result s' →
      ∃ new, Parsed fs workingDir (mode, subFile) s s' result new)
    (hincludes : Includes fs workingDir origin (mode, subFile))
    (h : (includeFile parse mode subFile data merge).Returns s result s') :
    ∃ new, Covered fs workingDir origin {(mode, subFile)} s s' result new := by
  rw [includeFile, RunM.returns_bind_of RunM.returns_get] at h
  by_cases hmem : (mode, subFile) ∈ s.included
  · rw [if_pos hmem, RunM.returns_pure] at h
    obtain ⟨rfl, rfl⟩ := h
    exact ⟨[], .refl, by simpa using hmem, by simp⟩
  · rw [if_neg hmem, RunM.returns_bind_of RunM.returns_set, RunM.returns_bind] at h
    have hexplored : ∀ {outcome s₁ new},
        Parsed fs workingDir (mode, subFile) (s.insert (mode, subFile)) s₁ outcome new →
          Explored fs workingDir origin s s₁ ((mode, subFile) :: new) := by
      intro outcome s₁ new hparsed
      constructor
      case included => simp [hparsed.included, VisitedFiles.insert]
      case reads => simpa [VisitedFiles.insert] using hparsed.reads
      case nodup =>
        intro hnodup
        apply hparsed.nodup
        exact List.nodup_append.mpr ⟨hnodup, List.nodup_singleton _, by
          intro other hother pair hpair
          rw [List.mem_singleton.mp hpair]
          rintro rfl
          exact hmem hother⟩
      case reached =>
        intro pair hpair
        rcases List.mem_cons.mp hpair with rfl | hpair
        · exact .single hincludes
        · exact .head hincludes (hparsed.reached pair hpair)
    rcases h with ⟨error, herror, rfl⟩ | ⟨sub, s₁, hsub, hmerge⟩
    · obtain ⟨outcome, houtcome, _⟩ := RunM.returns_mapErr.mp herror
      obtain ⟨new, hparsed⟩ := hparse houtcome
      exact ⟨_, hexplored hparsed, by simp, by simp⟩
    · obtain ⟨outcome, houtcome, hmapped⟩ := RunM.returns_mapErr.mp hsub
      obtain ⟨new, hparsed⟩ := hparse houtcome
      obtain ⟨_, rfl⟩ := returns_ofExcept hmerge
      cases outcome with
      | error error => cases hmapped
      | ok data' =>
          refine ⟨_, hexplored hparsed, ?_, fun _ _ => hparsed.closed data' rfl⟩
          simp [hparsed.included, VisitedFiles.insert]

variable [DecidableEq Url]

theorem parseStatement_returns {mode : Mode} {path : PathBuf}
    {data : RequirementsTxt Requirement Url}
    {statement : Except RequirementsTxtParserError (RequirementsTxtStatement Requirement Url)}
    (hparse : ∀ {mode path s result s'}, (parse mode path).Returns s result s' →
      ∃ new, Parsed fs workingDir (mode, path) s s' result new)
    (hincludes : ∀ pair', inclusion mode (path.parent.getD workingDir) statement = some pair' →
      Includes fs workingDir (mode, path) pair')
    (h : (parseStatement parse mode (path.parent.getD workingDir) data statement).Returns s
      result s') :
    ∃ new, Covered fs workingDir (mode, path)
      {pair' | inclusion mode (path.parent.getD workingDir) statement = some pair'}
      s s' result new := by
  have hnone : s' = s → inclusion mode (path.parent.getD workingDir) statement = none →
      ∃ new, Covered fs workingDir (mode, path)
        {pair' | inclusion mode (path.parent.getD workingDir) statement = some pair'}
        s s' result new := by
    intro heq hinclusion
    subst heq
    exact ⟨[], .refl, by simp [hinclusion], by simp⟩
  have hsome : ∀ pair', inclusion mode (path.parent.getD workingDir) statement = some pair' →
      (∃ new, Covered fs workingDir (mode, path) {pair'} s s' result new) →
      ∃ new, Covered fs workingDir (mode, path)
        {pair' | inclusion mode (path.parent.getD workingDir) statement = some pair'}
        s s' result new := by
    rintro pair' hinclusion ⟨new, hcovered⟩
    refine ⟨new, hcovered.explored, ?_, hcovered.closed⟩
    intro data hdata pair'' hinclusion'
    apply hcovered.included data hdata
    exact Option.some.inj (hinclusion'.symm.trans hinclusion)
  cases statement with
  | error error => exact hnone (RunM.returns_throw.mp h).2 rfl
  | ok statement =>
      cases statement with
      | requirements filename =>
          exact hsome _ rfl (includeFile_returns hparse (hincludes _ rfl) h)
      | constraint filename =>
          exact hsome _ rfl (includeFile_returns hparse (hincludes _ rfl) h)
      | requirementEntry entry => exact hnone (RunM.returns_pure.mp h).2 rfl
      | indexUrl url =>
          rw [parseStatement] at h
          split at h
          · exact hnone (RunM.returns_throw.mp h).2 rfl
          · exact hnone (RunM.returns_pure.mp h).2 rfl
      | other => exact hnone (RunM.returns_pure.mp h).2 rfl

theorem parseInner_returns {mode : Mode} {path : PathBuf} {content : Content Requirement Url}
    {data : RequirementsTxt Requirement Url}
    (hparse : ∀ {mode path s result s'}, (parse mode path).Returns s result s' →
      ∃ new, Parsed fs workingDir (mode, path) s s' result new)
    (hincludes : ∀ statement ∈ content, ∀ pair',
      inclusion mode (path.parent.getD workingDir) statement = some pair' →
        Includes fs workingDir (mode, path) pair')
    (h : (parseInner parse mode (path.parent.getD workingDir) content data).Returns s result s') :
    ∃ new, Covered fs workingDir (mode, path)
      {pair' | ∃ statement ∈ content,
        inclusion mode (path.parent.getD workingDir) statement = some pair'}
      s s' result new := by
  induction content generalizing data s with
  | nil =>
      obtain ⟨rfl, rfl⟩ := RunM.returns_pure.mp h
      exact ⟨[], .refl, by simp, by simp⟩
  | cons statement rest ih =>
      rw [parseInner, RunM.returns_bind] at h
      have hstatement := hincludes statement List.mem_cons_self
      rcases h with ⟨error, herror, rfl⟩ | ⟨data', s₁, hfirst, hrest⟩
      · obtain ⟨new, hcovered⟩ := parseStatement_returns hparse hstatement herror
        exact ⟨new, hcovered.explored, by simp, by simp⟩
      · obtain ⟨new, hcovered⟩ := parseStatement_returns hparse hstatement hfirst
        obtain ⟨new', hcovered'⟩ :=
          ih (fun other hother => hincludes other (List.mem_cons_of_mem _ hother)) hrest
        have hsubset := hcovered'.explored.subset
        refine ⟨new ++ new', hcovered.explored.trans hcovered'.explored, ?_, ?_⟩
        · rintro data'' hdata pair' ⟨other, hother, hinclusion⟩
          rcases List.mem_cons.mp hother with rfl | hother
          · exact hsubset (hcovered.included data' rfl pair' hinclusion)
          · exact hcovered'.included data'' hdata pair' ⟨other, hother, hinclusion⟩
        · intro data'' hdata pair hpair
          rcases List.mem_append.mp hpair with hpair | hpair
          · exact (hcovered.closed data' rfl pair hpair).mono hsubset
          · exact hcovered'.closed data'' hdata pair hpair

theorem parseImpl_returns {fuel : ℕ} {mode : Mode} {path : PathBuf}
    (h : (parseImpl fs workingDir fuel mode path).Returns s result s') :
    ∃ new, Parsed fs workingDir (mode, path) s s' result new := by
  induction fuel generalizing mode path s result s' with
  | zero => exact (RunM.not_returns_diverge h).elim
  | succ fuel ih =>
      rw [parseImpl, readFile] at h
      cases hlocate : fs.locate path with
      | none =>
          rw [hlocate] at h
          rcases RunM.returns_bind.mp h with ⟨error, herror, rfl⟩ | ⟨content, s₁, hread, _⟩
          · obtain ⟨_, rfl⟩ := RunM.returns_throw.mp herror
            exact ⟨[], by simp, by simp [reading, hlocate], id, by simp, by simp⟩
          · cases (RunM.returns_throw.mp hread).1
      | some found =>
          obtain ⟨file, content⟩ := found
          rw [hlocate] at h
          simp only [bind_assoc, pure_bind] at h
          rw [RunM.returns_bind_of RunM.returns_modify] at h
          obtain ⟨new, hexplored, hincluded, hclosed⟩ := parseInner_returns ih
            (fun statement hstatement pair' hinclusion =>
              ⟨file, content, hlocate, statement, hstatement, hinclusion⟩) h
          refine ⟨new, hexplored.included, ?_, hexplored.nodup, hexplored.reached, ?_⟩
          · rw [hexplored.reads]
            simp [VisitedFiles.read, reading, hlocate]
          · intro data hdata pair hpair
            rcases List.mem_cons.mp hpair with rfl | hpair
            · rintro pair' ⟨file', content', hlocate', statement, hstatement, hinclusion⟩
              cases hlocate.symm.trans hlocate'
              exact hincluded data hdata pair' ⟨statement, hstatement, hinclusion⟩
            · exact hclosed data hdata pair hpair

/-! ## Runs without errors -/

/-- A statement that no check of the loop refuses. -/
def Accepted : Except RequirementsTxtParserError (RequirementsTxtStatement Requirement Url) → Prop
  | .error _ => False
  | .ok (.requirementEntry (.unnamed _)) => False
  | .ok (.indexUrl _) => False
  | .ok _ => True

/-- A result that can be merged. -/
structure Plain (data : RequirementsTxt Requirement Url) : Prop where
  indexUrl : data.indexUrl = none
  named : ∀ entry ∈ data.requirements, ∃ requirement, entry = .named requirement

/-- The path and everything that is reached from it denote files. -/
structure Located (fs : FileSystem (Content Requirement Url)) (workingDir : PathBuf)
    (origin : Mode × PathBuf) : Prop where
  start : (fs.locate origin.2).isSome
  reached : ∀ pair, Reached fs workingDir origin pair → (fs.locate pair.2).isSome

theorem Located.includes (hlocated : Located fs workingDir origin)
    (hincludes : Includes fs workingDir origin pair) : Located fs workingDir pair where
  start := hlocated.reached pair (.single hincludes)
  reached pair' hreached := hlocated.reached pair' (.head hincludes hreached)

theorem mergeRequirements_plain {data sub : RequirementsTxt Requirement Url} (hdata : Plain data)
    (hsub : Plain sub) : ∃ merged, data.mergeRequirements sub = .ok merged ∧ Plain merged := by
  refine ⟨_, by rw [RequirementsTxt.mergeRequirements, if_neg (by simp [hsub.indexUrl])], ?_, ?_⟩
  · simp [RequirementsTxt.updateFrom, hdata.indexUrl, hsub.indexUrl]
  · intro entry hentry
    exact (List.mem_append.mp hentry).elim (hdata.named entry) (hsub.named entry)

theorem mergeConstraints_plain {data sub : RequirementsTxt Requirement Url} (hdata : Plain data)
    (hsub : Plain sub) : ∃ merged, data.mergeConstraints sub = .ok merged ∧ Plain merged := by
  have hnamed : ∃ named, sub.requirements.mapM RequirementsTxt.constraintOf = .ok named := by
    have hall := hsub.named
    revert hall
    induction sub.requirements with
    | nil => exact fun _ => ⟨[], rfl⟩
    | cons entry rest ih =>
        intro hall
        obtain ⟨requirement, rfl⟩ := hall entry List.mem_cons_self
        obtain ⟨named, hrest⟩ := ih fun other hother => hall other (List.mem_cons_of_mem _ hother)
        refine ⟨requirement :: named, ?_⟩
        rw [List.mapM_cons, RequirementsTxt.constraintOf, hrest]
        rfl
  obtain ⟨named, hnamed⟩ := hnamed
  have hmerge : data.mergeConstraints sub =
      .ok { data with constraints := data.constraints ++ named ++ sub.constraints } := by
    rw [RequirementsTxt.mergeConstraints, hnamed]
    rfl
  exact ⟨_, hmerge, hdata.indexUrl, hdata.named⟩

theorem includeFile_ok {mode : Mode} {subFile : PathBuf} {data : RequirementsTxt Requirement Url}
    {merge : RequirementsTxt Requirement Url →
      Except RequirementsTxtParserError (RequirementsTxt Requirement Url)}
    (hdata : Plain data)
    (hmerge : ∀ sub, Plain sub → ∃ merged, merge sub = .ok merged ∧ Plain merged)
    (hparse : ∀ {s result s'}, (parse mode subFile).Returns s result s' →
      ∃ sub, result = .ok sub ∧ Plain sub)
    (h : (includeFile parse mode subFile data merge).Returns s result s') :
    ∃ data, result = .ok data ∧ Plain data := by
  rw [includeFile, RunM.returns_bind_of RunM.returns_get] at h
  split at h
  · exact ⟨data, (RunM.returns_pure.mp h).1, hdata⟩
  · rw [RunM.returns_bind_of RunM.returns_set, RunM.returns_bind] at h
    rcases h with ⟨error, herror, _⟩ | ⟨sub, s₁, hsub, hmerged⟩
    · obtain ⟨outcome, houtcome, hmapped⟩ := RunM.returns_mapErr.mp herror
      obtain ⟨sub, rfl, _⟩ := hparse houtcome
      cases hmapped
    · obtain ⟨outcome, houtcome, hmapped⟩ := RunM.returns_mapErr.mp hsub
      obtain ⟨sub', rfl, hplain⟩ := hparse houtcome
      cases hmapped
      obtain ⟨merged, heq, hplain'⟩ := hmerge sub hplain
      exact ⟨merged, (returns_ofExcept hmerged).1.trans heq, hplain'⟩

theorem parseStatement_ok {mode : Mode} {dir : PathBuf} {data : RequirementsTxt Requirement Url}
    {statement : Except RequirementsTxtParserError (RequirementsTxtStatement Requirement Url)}
    (hdata : Plain data) (haccepted : Accepted statement)
    (hparse : ∀ pair, inclusion mode dir statement = some pair → ∀ {s result s'},
      (parse pair.1 pair.2).Returns s result s' → ∃ sub, result = .ok sub ∧ Plain sub)
    (h : (parseStatement parse mode dir data statement).Returns s result s') :
    ∃ data, result = .ok data ∧ Plain data := by
  cases statement with
  | error error => exact haccepted.elim
  | ok statement =>
      cases statement with
      | requirements filename =>
          exact includeFile_ok hdata (fun _ => mergeRequirements_plain hdata) (hparse _ rfl) h
      | constraint filename =>
          exact includeFile_ok hdata (fun _ => mergeConstraints_plain hdata) (hparse _ rfl) h
      | requirementEntry entry =>
          cases entry with
          | unnamed requirement => exact haccepted.elim
          | named requirement =>
              refine ⟨_, (RunM.returns_pure.mp h).1, hdata.indexUrl, ?_⟩
              intro entry hentry
              rcases List.mem_append.mp hentry with hmem | hmem
              · exact hdata.named entry hmem
              · exact ⟨requirement, List.mem_singleton.mp hmem⟩
      | indexUrl url => exact haccepted.elim
      | other => exact ⟨data, (RunM.returns_pure.mp h).1, hdata⟩

theorem parseInner_ok {mode : Mode} {dir : PathBuf} {content : Content Requirement Url}
    {data : RequirementsTxt Requirement Url} (hdata : Plain data)
    (haccepted : ∀ statement ∈ content, Accepted statement)
    (hparse : ∀ statement ∈ content, ∀ pair, inclusion mode dir statement = some pair →
      ∀ {s result s'}, (parse pair.1 pair.2).Returns s result s' →
        ∃ sub, result = .ok sub ∧ Plain sub)
    (h : (parseInner parse mode dir content data).Returns s result s') :
    ∃ data, result = .ok data ∧ Plain data := by
  induction content generalizing data s with
  | nil => exact ⟨data, (RunM.returns_pure.mp h).1, hdata⟩
  | cons statement rest ih =>
      rw [parseInner, RunM.returns_bind] at h
      have hfirst : ∀ {s result s'},
          (parseStatement parse mode dir data statement).Returns s result s' →
            ∃ data, result = .ok data ∧ Plain data :=
        parseStatement_ok hdata (haccepted statement List.mem_cons_self)
          (hparse statement List.mem_cons_self)
      rcases h with ⟨error, herror, _⟩ | ⟨data', s₁, hstatement, hrest⟩
      · obtain ⟨_, hok, _⟩ := hfirst herror
        cases hok
      · obtain ⟨_, hok, hplain⟩ := hfirst hstatement
        cases hok
        exact ih hplain (fun other hother => haccepted other (List.mem_cons_of_mem _ hother))
          (fun other hother => hparse other (List.mem_cons_of_mem _ hother)) hrest

theorem locate_content {path : PathBuf} {file : List String} {content : Content Requirement Url}
    (hlocate : fs.locate path = some (file, content)) : fs.content file = some content := by
  rw [FileSystem.locate] at hlocate
  obtain ⟨found, _, hrest⟩ := Option.bind_eq_some_iff.mp hlocate
  obtain ⟨content', hcontent, hpair⟩ := Option.bind_eq_some_iff.mp hrest
  cases hpair
  exact hcontent

theorem parseImpl_ok {fuel : ℕ} {mode : Mode} {path : PathBuf}
    (haccepted : ∀ file content, fs.content file = some content →
      ∀ statement ∈ content, Accepted statement)
    (hlocated : Located fs workingDir (mode, path))
    (h : (parseImpl fs workingDir fuel mode path).Returns s result s') :
    ∃ data, result = .ok data ∧ Plain data := by
  induction fuel generalizing mode path s result s' with
  | zero => exact (RunM.not_returns_diverge h).elim
  | succ fuel ih =>
      obtain ⟨⟨file, content⟩, hlocate⟩ := Option.isSome_iff_exists.mp hlocated.start
      simp only [parseImpl, readFile, hlocate, bind_assoc, pure_bind] at h
      rw [RunM.returns_bind_of RunM.returns_modify] at h
      apply parseInner_ok ⟨rfl, by simp [RequirementsTxt.default]⟩ _ _ h
      · exact haccepted file content (locate_content hlocate)
      · intro statement hstatement pair hinclusion _ _ _
        exact ih (hlocated.includes ⟨file, content, hlocate, statement, hstatement, hinclusion⟩)

/-! ## Termination -/

theorem includeFile_ends {mode : Mode} {subFile : PathBuf} {data : RequirementsTxt Requirement Url}
    {merge : RequirementsTxt Requirement Url →
      Except RequirementsTxtParserError (RequirementsTxt Requirement Url)}
    (hparse : (mode, subFile) ∉ s.included → (parse mode subFile).Ends (s.insert (mode, subFile))) :
    (includeFile parse mode subFile data merge).Ends s := by
  rw [includeFile]
  apply RunM.ends_bind RunM.ends_get
  intro visited s₁ hget
  obtain ⟨heq, rfl⟩ := RunM.returns_get.mp hget
  cases heq
  by_cases hmem : (mode, subFile) ∈ visited.included
  · rw [if_pos hmem]
    exact RunM.ends_pure data
  · rw [if_neg hmem]
    apply RunM.ends_bind (RunM.ends_set _)
    intro _ s₂ hset
    obtain ⟨_, rfl⟩ := RunM.returns_set.mp hset
    apply RunM.ends_bind (RunM.ends_mapErr (hparse hmem))
    intro sub s₃ _
    cases hmerge : merge sub with
    | ok merged => exact RunM.ends_pure merged
    | error error => exact RunM.ends_throw error

theorem parseStatement_ends {mode : Mode} {dir : PathBuf} {data : RequirementsTxt Requirement Url}
    {statement : Except RequirementsTxtParserError (RequirementsTxtStatement Requirement Url)}
    (hparse : ∀ pair, inclusion mode dir statement = some pair → pair ∉ s.included →
      (parse pair.1 pair.2).Ends (s.insert pair)) :
    (parseStatement parse mode dir data statement).Ends s := by
  cases statement with
  | error error => exact RunM.ends_throw error
  | ok statement =>
      cases statement with
      | requirements filename => exact includeFile_ends (hparse _ rfl)
      | constraint filename => exact includeFile_ends (hparse _ rfl)
      | requirementEntry entry => exact RunM.ends_pure _
      | indexUrl url =>
          rw [parseStatement]
          split
          · exact RunM.ends_throw _
          · exact RunM.ends_pure _
      | other => exact RunM.ends_pure _

theorem parseInner_ends {mode : Mode} {path : PathBuf} {content : Content Requirement Url}
    {data : RequirementsTxt Requirement Url}
    (hreturns : ∀ {mode path s result s'}, (parse mode path).Returns s result s' →
      ∃ new, Parsed fs workingDir (mode, path) s s' result new)
    (hincludes : ∀ statement ∈ content, ∀ pair',
      inclusion mode (path.parent.getD workingDir) statement = some pair' →
        Includes fs workingDir (mode, path) pair')
    (hparse : ∀ pair (s₁ : VisitedFiles), Includes fs workingDir (mode, path) pair → s.included ⊆ s₁.included →
      pair ∉ s₁.included → (parse pair.1 pair.2).Ends (s₁.insert pair)) :
    (parseInner parse mode (path.parent.getD workingDir) content data).Ends s := by
  induction content generalizing data s with
  | nil => exact RunM.ends_pure data
  | cons statement rest ih =>
      have hfirst := hincludes statement List.mem_cons_self
      rw [parseInner]
      apply RunM.ends_bind
      · apply parseStatement_ends
        intro pair hinclusion hmem
        exact hparse pair s (hfirst pair hinclusion) (List.Subset.refl _) hmem
      · intro data' s₁ hstatement
        obtain ⟨new, hexplored, _⟩ := parseStatement_returns hreturns hfirst hstatement
        apply ih fun other hother => hincludes other (List.mem_cons_of_mem _ hother)
        intro pair s₂ hpair hsubset hmem
        exact hparse pair s₂ hpair (List.Subset.trans hexplored.subset hsubset) hmem

/-- With more fuel than paths that are reached and not included yet, parsing ends. -/
theorem parseImpl_ends {fuel : ℕ} {mode : Mode} {path : PathBuf} {paths : Finset (Mode × PathBuf)}
    (hpaths : ∀ pair, Reached fs workingDir (mode, path) pair → pair ∈ paths)
    (hfuel : (paths \ s.included.toFinset).card < fuel) :
    (parseImpl fs workingDir fuel mode path).Ends s := by
  induction fuel generalizing mode path s with
  | zero => exact (Nat.not_lt_zero _ hfuel).elim
  | succ fuel ih =>
      rw [parseImpl, readFile]
      cases hlocate : fs.locate path with
      | none =>
          apply RunM.ends_bind (RunM.ends_throw _)
          intro content s₁ hthrow
          cases (RunM.returns_throw.mp hthrow).1
      | some found =>
          obtain ⟨file, content⟩ := found
          simp only [bind_assoc, pure_bind]
          apply RunM.ends_bind (RunM.ends_modify _)
          intro _ s₁ hread
          obtain ⟨_, rfl⟩ := RunM.returns_modify.mp hread
          apply parseInner_ends parseImpl_returns
          · intro statement hstatement pair' hinclusion
            exact ⟨file, content, hlocate, statement, hstatement, hinclusion⟩
          · intro pair s₂ hpair hsubset hmem
            apply ih fun pair' hreached => hpaths pair' (.head hpair hreached)
            -- The path is new, so one path fewer is left.
            have hstrict : paths \ (s₂.insert pair).included.toFinset ⊂
                paths \ s.included.toFinset := by
              apply Finset.ssubset_iff_of_subset _ |>.mpr
              · refine ⟨pair, Finset.mem_sdiff.mpr ⟨hpaths pair (.single hpair), ?_⟩, ?_⟩
                · exact fun hold => hmem (hsubset (List.mem_toFinset.mp hold))
                · simp [VisitedFiles.insert]
              · apply Finset.sdiff_subset_sdiff (Finset.Subset.refl _)
                intro other hother
                apply List.mem_toFinset.mpr
                exact List.mem_append_left _ (hsubset (List.mem_toFinset.mp hother))
            have hless := Finset.card_lt_card hstrict
            omega

end Runs

/-! ## Files read once -/

section Once

variable [DecidableEq Url] {path : PathBuf}

/-- Parsing ends and reads no file twice in the same mode. -/
def ReadsOnce (fs : FileSystem (Content Requirement Url)) (workingDir path : PathBuf) : Prop :=
  ∃ fuel result visited, parse fs workingDir fuel path = some (result, visited) ∧
    visited.reads.Nodup

/-- Paths that are reached in one mode denote different files, and the file at the start is
not reached as requirements. -/
structure DistinctFiles (fs : FileSystem (Content Requirement Url)) (workingDir path : PathBuf) :
    Prop where
  distinct : ∀ mode p q, Reached fs workingDir (.requirements, path) (mode, p) →
    Reached fs workingDir (.requirements, path) (mode, q) →
      reading fs (mode, p) = reading fs (mode, q) → p = q
  start : ∀ p, Reached fs workingDir (.requirements, path) (.requirements, p) →
    reading fs (.requirements, p) ≠ reading fs (.requirements, path)

theorem reading_eq_of_some {file : Mode × List String} (h : reading fs pair = some file)
    (h' : reading fs pair' = some file) : pair.1 = pair'.1 ∧ reading fs pair = reading fs pair' := by
  obtain ⟨found, _, rfl⟩ := Option.map_eq_some_iff.mp h
  obtain ⟨found', _, heq⟩ := Option.map_eq_some_iff.mp h'
  exact ⟨(congrArg Prod.fst heq).symm, h.trans h'.symm⟩

/-- There are as many paths as files, so there are finitely many. -/
theorem finite_reached (hfiles : {file | (fs.content file).isSome}.Finite)
    (hlocated : Located fs workingDir (.requirements, path))
    (hdistinct : DistinctFiles fs workingDir path) :
    {pair | Reached fs workingDir (.requirements, path) pair}.Finite := by
  have htarget : (Set.univ ×ˢ {file | (fs.content file).isSome} :
      Set (Mode × List String)).Finite := by
    apply Set.Finite.prod _ hfiles
    exact Set.Finite.subset (Set.toFinite {Mode.requirements, Mode.constraints})
      fun mode _ => by cases mode <;> simp
  apply Set.Finite.of_finite_image (f := reading fs)
  · apply (htarget.image some).subset
    rintro _ ⟨pair, hreached, rfl⟩
    obtain ⟨⟨file, content⟩, hlocate⟩ :=
      Option.isSome_iff_exists.mp (hlocated.reached pair hreached)
    refine ⟨(pair.1, file), ⟨trivial, ?_⟩, by simp [reading, hlocate]⟩
    simp [locate_content hlocate]
  · rintro ⟨mode, p⟩ hp ⟨mode', q⟩ hq heq
    obtain ⟨⟨file, content⟩, hlocate⟩ :=
      Option.isSome_iff_exists.mp (hlocated.reached (mode, p) hp)
    have hread : reading fs (mode, p) = some (mode, file) := by simp [reading, hlocate]
    obtain ⟨rfl, _⟩ := reading_eq_of_some hread (heq ▸ hread)
    rw [hdistinct.distinct _ p q hp hq heq]

/-- A run from the start includes new paths only, each once. -/
theorem parse_spec {fuel : ℕ}
    {result : Except RequirementsTxtParserError (RequirementsTxt Requirement Url)}
    {visited : VisitedFiles} (h : parse fs workingDir fuel path = some (result, visited)) :
    visited.included.Nodup ∧
      visited.reads = ((.requirements, path) :: visited.included).filterMap (reading fs) ∧
      (∀ pair ∈ visited.included, Reached fs workingDir (.requirements, path) pair) ∧
      ∀ data, result = .ok data →
        ∀ pair, Reached fs workingDir (.requirements, path) pair → pair ∈ visited.included := by
  obtain ⟨new, hparsed⟩ := parseImpl_returns h
  have hnew : visited.included = new := by simpa using hparsed.included
  refine ⟨hparsed.nodup List.nodup_nil, by simpa [hnew] using hparsed.reads, ?_, ?_⟩
  · intro pair hpair
    exact hparsed.reached pair (hnew ▸ hpair)
  · intro data hdata pair hreached
    induction hreached with
    | single hincludes => exact hparsed.closed data hdata _ List.mem_cons_self _ hincludes
    | tail _ hincludes ih =>
        exact hparsed.closed data hdata _ (List.mem_cons_of_mem _ (hnew ▸ ih)) _ hincludes

theorem readsOnce_of_distinct (hfiles : {file | (fs.content file).isSome}.Finite)
    (hlocated : Located fs workingDir (.requirements, path))
    (hdistinct : DistinctFiles fs workingDir path) : ReadsOnce fs workingDir path := by
  have hfinite := finite_reached hfiles hlocated hdistinct
  have hends : (parseImpl fs workingDir (hfinite.toFinset.card + 1) .requirements path).Ends
      ⟨[], []⟩ :=
    parseImpl_ends (fun pair hreached => hfinite.mem_toFinset.mpr hreached)
      (Nat.lt_succ_of_le (Finset.card_le_card Finset.sdiff_subset))
  obtain ⟨result, visited, hreturns⟩ := hends
  obtain ⟨hnodup, hreads, hreached, _⟩ := parse_spec hreturns
  refine ⟨_, result, visited, hreturns, ?_⟩
  rw [hreads, List.Nodup, List.pairwise_filterMap, List.pairwise_cons]
  constructor
  · rintro ⟨mode, p⟩ hp file hfile file' hfile' rfl
    obtain ⟨hmode, hsame⟩ := reading_eq_of_some hfile hfile'
    cases hmode
    exact hdistinct.start p (hreached _ hp) hsame.symm
  · apply List.Pairwise.imp_of_mem _ hnodup
    rintro ⟨mode, p⟩ ⟨mode', q⟩ hp hq hne file hfile file' hfile' rfl
    obtain ⟨hmode, hsame⟩ := reading_eq_of_some hfile hfile'
    cases hmode
    exact hne (congrArg _ (hdistinct.distinct _ p q (hreached _ hp) (hreached _ hq) hsame))

/-- Paths that denote one file are the same if no file is read twice. -/
theorem eq_of_nodup_reads {pairs : List (Mode × PathBuf)} {file : Mode × List String}
    (hnodup : (pairs.filterMap (reading fs)).Nodup) (hpair : pair ∈ pairs) (hpair' : pair' ∈ pairs)
    (hread : reading fs pair = some file) (hread' : reading fs pair' = some file) :
    pair = pair' := by
  rw [List.Nodup, List.pairwise_filterMap] at hnodup
  by_contra hne
  have hsymm : Std.Symm fun pair pair' : Mode × PathBuf => ∀ file, reading fs pair = some file →
      ∀ file', reading fs pair' = some file' → file ≠ file' :=
    ⟨fun _ _ h file hfile file' hfile' => (h file' hfile' file hfile).symm⟩
  exact hnodup.forall hpair hpair' hne file hread file hread' rfl

theorem distinct_of_readsOnce
    (haccepted : ∀ file content, fs.content file = some content →
      ∀ statement ∈ content, Accepted statement)
    (hlocated : Located fs workingDir (.requirements, path))
    (honce : ReadsOnce fs workingDir path) : DistinctFiles fs workingDir path := by
  obtain ⟨fuel, result, visited, hrun, hnodup⟩ := honce
  obtain ⟨_, hreads, _, hclosed⟩ := parse_spec hrun
  obtain ⟨data, rfl, _⟩ := parseImpl_ok haccepted hlocated hrun
  have hread : ∀ pair, Reached fs workingDir (.requirements, path) pair →
      ∃ file, reading fs pair = some file := by
    intro pair hreached
    obtain ⟨found, hfound⟩ := Option.isSome_iff_exists.mp (hlocated.reached pair hreached)
    exact ⟨_, by rw [reading, hfound]; rfl⟩
  constructor
  case distinct =>
    intro mode p q hp hq hsame
    obtain ⟨file, hfile⟩ := hread _ hp
    have heq := eq_of_nodup_reads (hreads ▸ hnodup)
      (List.mem_cons_of_mem _ (hclosed data rfl _ hp))
      (List.mem_cons_of_mem _ (hclosed data rfl _ hq)) hfile (hsame ▸ hfile)
    exact congrArg Prod.snd heq
  case start =>
    intro p hp hsame
    obtain ⟨file, hfile⟩ := hread _ hp
    rw [hreads, List.Nodup, List.pairwise_filterMap, List.pairwise_cons] at hnodup
    exact hnodup.1 _ (hclosed data rfl _ hp) file (hsame ▸ hfile) file hfile rfl

/-- Files that include one another are read once in either mode if no file is reached by two
paths; where no check of a statement fails, only then. -/
theorem readsOnce_iff (hfiles : {file | (fs.content file).isSome}.Finite)
    (hlocated : Located fs workingDir (.requirements, path)) :
    (DistinctFiles fs workingDir path → ReadsOnce fs workingDir path) ∧
      ((∀ file content, fs.content file = some content →
        ∀ statement ∈ content, Accepted statement) →
          (ReadsOnce fs workingDir path ↔ DistinctFiles fs workingDir path)) := by
  have hsufficient := readsOnce_of_distinct hfiles hlocated
  exact ⟨hsufficient, fun haccepted =>
    ⟨distinct_of_readsOnce haccepted hlocated, hsufficient⟩⟩

end Once

/-! ## Concrete files -/

section Concrete

/-- The directory `reqs` with the file `a.txt`. -/
private def reqs (content : Content String String) : FileSystem (Content String String) where
  isDirectory place := decide (place = [] ∨ place = ["reqs"])
  content file := if file = ["reqs", "a.txt"] then some content else none
  currentDirectory := []

/-- `-r ../reqs/a.txt`. -/
private def upAndDown : Content String String :=
  [.ok (.requirements [.parent, .normal "reqs", .normal "a.txt"])]

/-- `reqs/../reqs`, and so on. -/
private def reqsDir : ℕ → PathBuf
  | 0 => [.normal "reqs"]
  | n + 1 => reqsDir n ++ [.parent, .normal "reqs"]

private theorem place_reqsDir (content : Content String String) (n : ℕ) :
    (reqsDir n).foldlM (reqs content).step [] = some ["reqs"] := by
  induction n with
  | zero => rfl
  | succ n ih =>
      rw [reqsDir, List.foldlM_append, ih]
      rfl

private theorem locate_reqsDir (content : Content String String) (n : ℕ) :
    (reqs content).locate (reqsDir n ++ [.normal "a.txt"]) =
      some (["reqs", "a.txt"], content) := by
  have hplace : (reqsDir n ++ [Component.normal "a.txt"]).foldlM (reqs content).step [] =
      some ["reqs", "a.txt"] := by
    rw [List.foldlM_append, place_reqsDir]
    rfl
  change ((reqsDir n ++ [Component.normal "a.txt"]).foldlM (reqs content).step []).bind _ = _
  rw [hplace]
  rfl

private theorem parent_reqsDir (n : ℕ) :
    PathBuf.parent (reqsDir n ++ [.normal "a.txt"]) = some (reqsDir n) := by
  simp [PathBuf.parent]

private theorem join_reqsDir (n : ℕ) :
    (reqsDir n).join [.parent, .normal "reqs", .normal "a.txt"] =
      reqsDir (n + 1) ++ [.normal "a.txt"] := by
  have hne : reqsDir n ≠ [] := by cases n <;> simp [reqsDir]
  simp [PathBuf.join, hne, reqsDir]

private theorem includes_upAndDown {n : ℕ} {mode : Mode} :
    Includes (reqs upAndDown) [] (mode, reqsDir n ++ [.normal "a.txt"]) pair ↔
      pair = (mode, reqsDir (n + 1) ++ [.normal "a.txt"]) := by
  have hinclusion : inclusion mode ((PathBuf.parent (reqsDir n ++ [.normal "a.txt"])).getD [])
      (.ok (.requirements [.parent, .normal "reqs", .normal "a.txt"]) :
        Except _ (RequirementsTxtStatement String String)) =
      some (mode, reqsDir (n + 1) ++ [.normal "a.txt"]) := by
    rw [parent_reqsDir, Option.getD_some, inclusion, join_reqsDir]
  constructor
  · rintro ⟨file, content, hlocate, statement, hstatement, heq⟩
    cases (locate_reqsDir upAndDown n).symm.trans hlocate
    rw [List.mem_singleton.mp hstatement, hinclusion] at heq
    exact (Option.some.inj heq).symm
  · rintro rfl
    exact ⟨_, _, locate_reqsDir upAndDown n, _, List.mem_singleton_self _, hinclusion⟩

private theorem reached_upAndDown (n : ℕ) : Reached (reqs upAndDown) []
    (.requirements, reqsDir 0 ++ [.normal "a.txt"])
    (.requirements, reqsDir (n + 1) ++ [.normal "a.txt"]) := by
  induction n with
  | zero => exact .single (includes_upAndDown.mpr rfl)
  | succ n ih => exact .tail ih (includes_upAndDown.mpr rfl)

private theorem located_upAndDown : Located (reqs upAndDown) []
    (.requirements, reqsDir 0 ++ [.normal "a.txt"]) where
  start := by simp [locate_reqsDir]
  reached pair hreached := by
    have hform : ∃ n, pair = (.requirements, reqsDir n ++ [.normal "a.txt"]) := by
      induction hreached with
      | single hincludes => exact ⟨1, includes_upAndDown.mp hincludes⟩
      | tail _ hincludes ih =>
          obtain ⟨n, rfl⟩ := ih
          exact ⟨n + 1, includes_upAndDown.mp hincludes⟩
    obtain ⟨n, rfl⟩ := hform
    simp [locate_reqsDir]

private theorem accepted_upAndDown : ∀ file content,
    (reqs upAndDown).content file = some content → ∀ statement ∈ content, Accepted statement := by
  intro file content hcontent statement hstatement
  change (if file = ["reqs", "a.txt"] then some upAndDown else none) = some content at hcontent
  split_ifs at hcontent
  cases hcontent
  rw [List.mem_singleton.mp hstatement]
  trivial

/-- A file that includes itself as `../reqs/a.txt` is included without end; one that includes
itself as `a.txt` is read twice. -/
theorem parse_selfInclusion :
    (Located (reqs upAndDown) [] (.requirements, [.normal "reqs", .normal "a.txt"]) ∧
      ∀ fuel, parse (reqs upAndDown) [] fuel [.normal "reqs", .normal "a.txt"] = none) ∧
    ∃ result visited, parse (reqs [.ok (.requirements [.normal "a.txt"])]) [] 3
        [.normal "reqs", .normal "a.txt"] = some (result, visited) ∧
      visited.reads =
        [(.requirements, ["reqs", "a.txt"]), (.requirements, ["reqs", "a.txt"])] := by
  refine ⟨⟨located_upAndDown, ?_⟩, ?_⟩
  · intro fuel
    by_contra hsome
    obtain ⟨⟨result, visited⟩, hrun⟩ := Option.ne_none_iff_exists'.mp hsome
    obtain ⟨data, rfl, _⟩ := parseImpl_ok accepted_upAndDown located_upAndDown hrun
    obtain ⟨_, _, _, hclosed⟩ := parse_spec hrun
    apply Set.infinite_of_injective_forall_mem (f := fun n : ℕ =>
      ((Mode.requirements, reqsDir (n + 1) ++ [.normal "a.txt"]) : Mode × PathBuf)) _
        (fun n => hclosed data rfl _ (reached_upAndDown n)) visited.included.finite_toSet
    have hlength : ∀ n, (reqsDir n).length = 2 * n + 1 := by
      intro n
      induction n with
      | zero => rfl
      | succ n ih => simp [reqsDir, ih]; omega
    intro m n heq
    have hsame := congrArg (fun pair : Mode × PathBuf => pair.2.length) heq
    simp only [List.length_append, hlength] at hsame
    omega
  · exact ⟨_, _, rfl, rfl⟩

/-- `-r b.txt` in the file `a.txt`, and an empty file `b.txt`. -/
private def twoFiles : FileSystem (Content String String) where
  isDirectory place := decide (place = [])
  content file :=
    if file = ["a.txt"] then some [.ok (.requirements [.normal "b.txt"])]
    else if file = ["b.txt"] then some []
    else none
  currentDirectory := []

private theorem reached_twoFiles
    (hreached : Reached twoFiles [] (.requirements, [.normal "a.txt"]) pair) :
    pair = (.requirements, [.normal "b.txt"]) := by
  induction hreached with
  | single hincludes =>
      obtain ⟨file, content, hlocate, statement, hstatement, hinclusion⟩ := hincludes
      cases hlocate
      rw [List.mem_singleton.mp hstatement] at hinclusion
      exact (Option.some.inj hinclusion).symm
  | tail _ hincludes ih =>
      obtain ⟨file, content, hlocate, statement, hstatement, _⟩ := hincludes
      rw [ih] at hlocate
      cases hlocate
      cases hstatement

theorem readsOnce_iff_twoFiles : ReadsOnce twoFiles [] [.normal "a.txt"] := by
  apply (readsOnce_iff _ _).1
  · constructor
    case distinct =>
      intro mode p q hp hq _
      exact (congrArg Prod.snd (reached_twoFiles hp)).trans
        (congrArg Prod.snd (reached_twoFiles hq)).symm
    case start =>
      intro p hp
      have hpath : p = [.normal "b.txt"] := congrArg Prod.snd (reached_twoFiles hp)
      rw [hpath]
      decide
  · apply (Set.toFinite {["a.txt"], ["b.txt"]}).subset
    intro file hfile
    by_contra hne
    simp only [Set.mem_insert_iff, Set.mem_singleton_iff, not_or] at hne
    simp [twoFiles, hne] at hfile
  · constructor
    case start => decide
    case reached =>
      intro pair hreached
      rw [reached_twoFiles hreached]
      decide

end Concrete

end Uv.Requirements
