import Uv.Core.Lines
import Uv.Pep508.Growth

/-!
# `requires.txt`

The lines of a `requires.txt` are requirements and the headers of sections; a header has an
extra, a marker, both or neither.  The functions that fix up a requirement are a parameter, as
the engine of regular expressions is not part of the source.
-/

set_option linter.unusedSectionVars false

namespace Uv.PypiTypes

open Uv.Core Uv.Pep440 Uv.Pep508
open Uv.Pep440.VersionSpecifier (isWhitespace)
open Uv.Pep508.Interner

variable {Url E : Type}

inductive MetadataError (E : Type) where
  | marker (error : Pep508Error)
  | requirement (error : E)

/-! ## Fixing up requirements -/

section Lenient

variable {α : Type} (fromStr : Text → InternerM (Except E α))

/-- The loop over the fixups; each one works on what the ones before it made. -/
def tryFixups (err : E) : List (Text → Text) → Text → InternerM (Except E α)
  | [], _ => pure (.error err)
  | fixup :: rest, input =>
      if fixup input ≠ input then do
        match ← fromStr (fixup input) with
        | .ok requirement => pure (.ok requirement)
        | .error _ => tryFixups err rest (fixup input)
      else tryFixups err rest input

def parseWithFixups (fixups : List (Text → Text)) (input : Text) : InternerM (Except E α) := do
  match ← fromStr input with
  | .ok requirement => pure (.ok requirement)
  | .error err => tryFixups fromStr err fixups input

end Lenient

/-! ## Lines -/

def trimLine (line : Text) : Text :=
  ((line.dropWhile isWhitespace).reverse.dropWhile isWhitespace).reverse

/-- The extra and the marker of a header, which both may be empty. -/
def headerParts (line : Text) : Option Text × Option Text :=
  let line := ((line.dropWhile (· = '[')).reverse.dropWhile (· = ']')).reverse
  let extra := line.takeWhile (· ≠ ':')
  let marker := if ':' ∈ line then some ((line.dropWhile (· ≠ ':')).drop 1) else none
  (if extra.isEmpty then none else some extra, marker.filter (!·.isEmpty))

def extraOf (extra : Text) : MarkerValueExtra :=
  match validateAndNormalize extra with
  | some name => .extra name
  | none => .arbitrary extra

def providedExtra (extra : Option Text) : List Text :=
  ((extra.bind fun extra => validateAndNormalize extra).toList)

structure Sections (Url : Type) where
  requiresDist : List (Requirement Url)
  providesExtra : List Text
  currentMarker : NodeId

section Parse

variable [Alphabetic] [RangeOps ValidVersion] [RangeOps Text]

/-- The tree of a header. -/
def sectionMarker (extra : Option MarkerValueExtra) (marker : Option NodeId) :
    InternerM NodeId :=
  match extra, marker with
  | some extra, some marker => do
      let tree ← expression (.extra extra .equal)
      Uv.Pep508.and marker tree
  | some extra, none => expression (.extra extra .equal)
  | none, some marker => pure marker
  | none, none => pure .TRUE

def parseMarker (marker : Option Text) : InternerM (Except Pep508Error (Option NodeId)) :=
  match marker with
  | none => pure (.ok none)
  | some marker => do
      let tree ← Uv.Pep508.fromStr marker
      pure (tree.map some)

variable (lenient : Text → InternerM (Except E (Requirement Url)))

def parseLine (line : Text) (sections : Sections Url) :
    InternerM (Except (MetadataError E) (Sections Url)) :=
  let line := trimLine line
  if line.isEmpty then pure (.ok sections)
  else if line.head? = some '[' then do
    let (extra, marker) := headerParts line
    match ← parseMarker marker with
    | .error e => pure (.error (.marker e))
    | .ok marker => do
        let tree ← sectionMarker (extra.map extraOf) marker
        pure (.ok ⟨sections.requiresDist, sections.providesExtra ++ providedExtra extra, tree⟩)
  else do
    match ← lenient line with
    | .error e => pure (.error (.requirement e))
    | .ok requirement =>
        pure (.ok { sections with
          requiresDist := sections.requiresDist ++
            [{ requirement with marker := sections.currentMarker }] })

def parseLines : List Text → Sections Url →
    InternerM (Except (MetadataError E) (Sections Url))
  | [], sections => pure (.ok sections)
  | line :: rest, sections => do
      match ← parseLine lenient line sections with
      | .error e => pure (.error e)
      | .ok sections => parseLines rest sections

/-- `RequiresTxt::parse` of a text. -/
def RequiresTxt.parse (content : Text) : InternerM (Except (MetadataError E) (Sections Url)) :=
  parseLines lenient (lines content) ⟨[], [], .TRUE⟩

/-! ## Sections -/

/-- The extra and the marker of the last header. -/
structure Section where
  extra : Option MarkerValueExtra
  marker : Option NodeId

/-- A name that is no extra is never active. -/
def isActive (extras : ExtrasEnvironment) : MarkerValueExtra → Bool
  | .extra name => extras.extra.contains name
  | .arbitrary _ => false

namespace Section

/-- The extra is active, and the marker is true. -/
def applies (current : Section) (s : Interner) (env : MarkerEnvironment)
    (extras : ExtrasEnvironment) : Bool :=
  current.extra.all (isActive extras) && current.marker.all (s.evaluate env extras)

/-- Where there are an extra and a marker, their conjunction is only known for a marker without
malformed list names, in environments that are not excluded. -/
def Plain (current : Section) (s : Interner) (env : MarkerEnvironment) : Prop :=
  current.extra.isSome = true → ∀ marker ∈ current.marker,
    Interner.Named s marker ∧ env.isExcluded = false

/-- The tree is true where the section applies, now and later. -/
def HasTree (below : Variable → Variable → Prop) (current : Section) (s : Interner)
    (tree : NodeId) : Prop :=
  ∀ s', s ≤ s' → Sound below s' → ∀ env extras, current.Plain s' env →
    s'.evaluate env extras tree = current.applies s' env extras

end Section

/-- The lines are read, each requirement in its section. -/
inductive Reads : List Text → Section → Interner → List (Section × Requirement Url) →
    Interner → Prop
  | nil (current : Section) (s : Interner) : Reads [] current s [] s
  | blank {line : Text} {rest : List Text} {current : Section} {s s' : Interner}
      {items : List (Section × Requirement Url)} (hblank : trimLine line = [])
      (hrest : Reads rest current s items s') : Reads (line :: rest) current s items s'
  | header {line : Text} {rest : List Text} {current : Section} {s s₁ s₂ s' : Interner}
      {items : List (Section × Requirement Url)} {marker : Option NodeId} {tree : NodeId}
      (hbracket : (trimLine line).head? = some '[')
      (hmarker : (parseMarker (headerParts (trimLine line)).2).run s = some (.ok marker, s₁))
      (htree : (sectionMarker ((headerParts (trimLine line)).1.map extraOf) marker).run s₁ =
        some (tree, s₂))
      (hrest : Reads rest ⟨(headerParts (trimLine line)).1.map extraOf, marker⟩ s₂ items s') :
      Reads (line :: rest) current s items s'
  | requirement {line : Text} {rest : List Text} {current : Section} {s s₁ s' : Interner}
      {items : List (Section × Requirement Url)} {own : Requirement Url}
      (hline : trimLine line ≠ []) (hbracket : (trimLine line).head? ≠ some '[')
      (hown : (lenient (trimLine line)).run s = some (.ok own, s₁))
      (hrest : Reads rest current s₁ items s') :
      Reads (line :: rest) current s ((current, own) :: items) s'

variable {below : Variable → Variable → Prop} {s s' : Interner}
  {lenient : Text → InternerM (Except E (Requirement Url))}

/-- The parser of requirements leaves the interner sound, and only adds to it. -/
def Keeps (below : Variable → Variable → Prop)
    (fromStr : Text → InternerM (Except E (Requirement Url))) : Prop :=
  ∀ text s, Sound below s → Allows (Sound below) (fromStr text) s fun _ _ => True

/-- The expression of an extra is true where the extra is active. -/
theorem expression_extra (hsound : Sound below s) (extra : MarkerValueExtra) :
    Ensures (Sound below) (expression (.extra extra .equal)) s fun s' tree =>
      ∀ s'', s' ≤ s'' → Sound below s'' → Interner.Named s'' tree ∧
        ∀ env extras, s''.evaluate env extras tree = isActive extras extra := by
  obtain ⟨result, hresult⟩ : ∃ result,
      expressionEdges (.extra extra .equal) = some result := by
    cases extra with
    | extra name => exact ⟨_, rfl⟩
    | arbitrary name => exact ⟨_, rfl⟩
  apply (expression_exact hsound hresult).weaken
  intro tree s' hsound' _ hexact s'' hle hsound''
  obtain ⟨hvalid, hholds, hnamed⟩ := hexact
  have hvalid'' := hvalid.mono hle
  have hnamed'' := (hnamed rfl).mono hle
  apply And.intro
  · exact ⟨hvalid'', hnamed''⟩
  · intro env extras
    rw [Bool.eq_iff_iff, evaluate_iff_holds hsound''.wellFormed hvalid'' hnamed'',
      holds_mono hsound'.wellFormed hsound''.wellFormed hle hvalid, hholds,
      MarkerExpression.Holds]
    cases extra with
    | extra name =>
        change (NodeId.TRUE = if env.test extras (.extra name) then NodeId.TRUE
          else NodeId.FALSE) ↔ _
        rw [isActive, MarkerEnvironment.test]
        split_ifs with hactive
        · exact iff_of_true rfl hactive
        · exact iff_of_false NodeId.false_ne_true.symm hactive
    | arbitrary name => exact iff_of_false NodeId.false_ne_true Bool.false_ne_true

theorem evaluate_true (env : MarkerEnvironment) (extras : ExtrasEnvironment) (s : Interner) :
    s.evaluate env extras .TRUE = true := by
  rw [evaluate]
  rfl

/-- The tree of a header is true where the section applies. -/
theorem sectionMarker_hasTree (hsound : Sound below s) {extra : Option MarkerValueExtra}
    {marker : Option NodeId} (hvalid : ∀ tree ∈ marker, s.Valid tree) :
    Ensures (Sound below) (sectionMarker extra marker) s fun s' tree =>
      Section.HasTree below ⟨extra, marker⟩ s' tree := by
  cases extra with
  | none =>
      cases marker with
      | none =>
          apply Ensures.pure hsound
          intro s' _ _ env extras _
          exact evaluate_true env extras s'
      | some marker =>
          apply Ensures.pure hsound
          intro s' _ _ env extras _
          exact (Bool.true_and _).symm
  | some extra =>
      cases marker with
      | none =>
          apply (expression_extra hsound extra).weaken
          intro tree s' hsound' _ htree s'' hle hsound'' env extras _
          rw [(htree s'' hle hsound'').2 env extras]
          exact (Bool.and_true _).symm
      | some marker =>
          apply (expression_extra hsound extra).bind
          intro tree s' hsound' hle htree
          have hmarker := (hvalid marker rfl).mono hle
          apply (and_ensures hsound' hmarker (htree s' le_rfl hsound').1.valid).weaken
          intro both s₂ hsound₂ hle₂ hconj s'' hle'' hsound'' env extras hplain
          obtain ⟨hnamed, henv⟩ := hplain rfl marker rfl
          have hconj'' := hconj.mono hsound₂.wellFormed hsound''.wellFormed hle''
          obtain ⟨htreeNamed, hactive⟩ := htree s'' (hle₂.trans hle'') hsound''
          rw [hconj''.evaluate hsound''.wellFormed hnamed htreeNamed henv,
            hactive env extras]
          exact Bool.and_comm _ _

theorem parseMarker_ok {marker : Option Text} {tree : Option NodeId} (hsound : Sound below s)
    (hrun : (parseMarker marker).run s = some (.ok tree, s')) :
    Sound below s' ∧ s ≤ s' ∧ ∀ id ∈ tree, s'.Valid id := by
  cases marker with
  | none =>
      cases hrun
      exact ⟨hsound, le_rfl, nofun⟩
  | some marker =>
      have hfrom : ∃ outcome s₁, (Uv.Pep508.fromStr marker).run s = some (outcome, s₁) ∧
          outcome.map some = .ok tree ∧ s₁ = s' := by
        rw [parseMarker, StateT.run_bind] at hrun
        obtain ⟨⟨outcome, s₁⟩, hfirst, hrest⟩ := Option.bind_eq_some_iff.mp hrun
        have hpair := Option.some.inj hrest
        exact ⟨outcome, s₁, hfirst, congrArg Prod.fst hpair, congrArg Prod.snd hpair⟩
      obtain ⟨outcome, s₁, hfirst, houtcome, rfl⟩ := hfrom
      cases parsed hsound marker with
      | panic hpanic =>
          rw [hpanic] at hfirst
          cases hfirst
      | error herror =>
          rw [herror] at hfirst
          cases hfirst
          cases houtcome
      | @ok found _ scan hok hsound' hle hrepresents =>
          rw [hok] at hfirst
          cases hfirst
          cases houtcome
          refine ⟨hsound', hle, ?_⟩
          intro other hother
          have heq : found = other := Option.some.inj hother
          rw [← heq]
          cases hvalue : scan.frame.value with
          | none =>
              rw [hvalue] at hrepresents
              have htrue : found = .TRUE := hrepresents
              rw [htrue]
              exact valid_true
          | some formula =>
              rw [hvalue] at hrepresents
              exact StandsFor.valid hrepresents

/-- The requirement is the line's own but for its marker, and that is true where the section
applies. -/
structure InSection (s : Interner) (item : Section × Requirement Url)
    (requirement : Requirement Url) : Prop where
  same : requirement = { item.2 with marker := requirement.marker }
  evaluate_eq : ∀ env extras, item.1.Plain s env →
    s.evaluate env extras requirement.marker = item.1.applies s env extras

theorem bind_eq_some {α β : Type} {action : InternerM α} {next : α → InternerM β}
    {s s' : Interner} {result : β} (hrun : (action >>= next).run s = some (result, s')) :
    ∃ value s₁, action.run s = some (value, s₁) ∧ (next value).run s₁ = some (result, s') := by
  rw [StateT.run_bind] at hrun
  obtain ⟨⟨value, s₁⟩, hfirst, hrest⟩ := Option.bind_eq_some_iff.mp hrun
  exact ⟨value, s₁, hfirst, hrest⟩

/-- A line leaves the sections as they are, begins one or has a requirement in one. -/
inductive ParsedLine (below : Variable → Variable → Prop)
    (lenient : Text → InternerM (Except E (Requirement Url))) (line : Text)
    (sections : Sections Url) (s : Interner) (result : Sections Url) (s' : Interner) : Prop
  | blank (hblank : trimLine line = []) (hresult : result = sections) (hs : s' = s)
  | header {marker : Option NodeId} {s₁ : Interner}
      (hbracket : (trimLine line).head? = some '[')
      (hmarker : (parseMarker (headerParts (trimLine line)).2).run s = some (.ok marker, s₁))
      (htree : (sectionMarker ((headerParts (trimLine line)).1.map extraOf) marker).run s₁ =
        some (result.currentMarker, s'))
      (hresult : result.requiresDist = sections.requiresDist)
  | requirement {own : Requirement Url} (hline : trimLine line ≠ [])
      (hbracket : (trimLine line).head? ≠ some '[')
      (hown : (lenient (trimLine line)).run s = some (.ok own, s'))
      (hresult : result = { sections with
        requiresDist := sections.requiresDist ++
          [{ own with marker := sections.currentMarker }] })

theorem parseLine_cases {line : Text} {sections result : Sections Url}
    (hrun : (parseLine lenient line sections).run s = some (.ok result, s')) :
    ParsedLine below lenient line sections s result s' := by
  rw [parseLine] at hrun
  split_ifs at hrun with hblank hbracket
  · have hpair := Option.some.inj hrun
    injection hpair with hresult hs
    injection hresult with hresult
    exact .blank (List.isEmpty_iff.mp hblank) hresult.symm hs.symm
  · obtain ⟨marker, s₁, hmarker, hrest⟩ := bind_eq_some hrun
    cases marker with
    | error e => cases hrest
    | ok marker =>
        obtain ⟨tree, s₂, htree, hlast⟩ := bind_eq_some hrest
        cases hlast
        exact .header hbracket hmarker htree rfl
  · obtain ⟨own, s₁, hown, hrest⟩ := bind_eq_some hrun
    cases own with
    | error e => cases hrest
    | ok own =>
        cases hrest
        exact .requirement (fun hnil => hblank (List.isEmpty_iff.mpr hnil)) hbracket hown rfl

theorem Section.HasTree.mono {current : Section} {tree : NodeId} (hle : s ≤ s')
    (htree : current.HasTree below s tree) : current.HasTree below s' tree :=
  fun s'' hle' => htree s'' (hle.trans hle')

/-- Every requirement that is read is in its section. -/
theorem parseLines_reads (hkeeps : Keeps below lenient) {ls : List Text} {current : Section}
    {sections result : Sections Url} (hsound : Sound below s)
    (htree : current.HasTree below s sections.currentMarker)
    (hrun : (parseLines lenient ls sections).run s = some (.ok result, s')) :
    ∃ items, Reads lenient ls current s items s' ∧ Sound below s' ∧ s ≤ s' ∧
      ∃ added, result.requiresDist = sections.requiresDist ++ added ∧
        List.Forall₂ (InSection s') items added := by
  induction ls generalizing current sections s with
  | nil =>
      cases hrun
      exact ⟨[], .nil _ _, hsound, le_rfl, [], (List.append_nil _).symm, .nil⟩
  | cons line rest ih =>
      rw [parseLines] at hrun
      obtain ⟨next, s₁, hline, hrest⟩ := bind_eq_some hrun
      cases next with
      | error e => cases hrest
      | ok next =>
          have hcases : ParsedLine below lenient line sections s next s₁ := parseLine_cases hline
          cases hcases with
          | blank hblank hresult hs =>
              subst hresult hs
              obtain ⟨items, hreads, hsound', hle, hadded⟩ := ih hsound htree hrest
              exact ⟨items, .blank hblank hreads, hsound', hle, hadded⟩
          | header hbracket hmarker hsection hresult =>
              obtain ⟨hsound₁, hle₁, hvalid⟩ := parseMarker_ok hsound hmarker
              obtain ⟨hsound₂, hle₂, htree₂⟩ :=
                (sectionMarker_hasTree hsound₁ hvalid).of_run hsection
              obtain ⟨items, hreads, hsound', hle, hadded⟩ := ih hsound₂ htree₂ hrest
              rw [hresult] at hadded
              exact ⟨items, .header hbracket hmarker hsection hreads, hsound',
                (hle₁.trans hle₂).trans hle, hadded⟩
          | @requirement own hne hbracket hown hresult =>
              obtain ⟨hsound₁, hle₁, _⟩ := hkeeps _ _ hsound _ _ hown
              have hmarker : next.currentMarker = sections.currentMarker := by rw [hresult]
              rw [← hmarker] at htree
              obtain ⟨items, hreads, hsound', hle, added, hdist, hitems⟩ :=
                ih hsound₁ (htree.mono hle₁) hrest
              refine ⟨(current, own) :: items, .requirement hne hbracket hown hreads, hsound',
                hle₁.trans hle, { own with marker := next.currentMarker } :: added, ?_, ?_⟩
              · rw [hdist, hresult, List.append_assoc]
                rfl
              · apply List.Forall₂.cons _ hitems
                constructor
                · rfl
                · exact htree s' (hle₁.trans hle) hsound'

/-- A requirement has the condition of its section and its own iff its own is true where the
section applies. -/
theorem InSection.applies_iff {item : Section × Requirement Url} {requirement : Requirement Url}
    (hitem : InSection s item requirement) {env : MarkerEnvironment}
    {extras : ExtrasEnvironment} (hplain : item.1.Plain s env) :
    (s.evaluate env extras requirement.marker = true ↔
        s.evaluate env extras item.2.marker = true ∧ item.1.applies s env extras = true) ↔
      (item.1.applies s env extras = true → s.evaluate env extras item.2.marker = true) := by
  rw [hitem.evaluate_eq env extras hplain]
  exact ⟨fun hiff happlies => (hiff.mp happlies).1,
    fun hown => ⟨fun happlies => ⟨hown happlies, happlies⟩, fun hboth => hboth.2⟩⟩

theorem Keeps.parseWithFixups {fromStr : Text → InternerM (Except E (Requirement Url))}
    (hkeeps : Keeps below fromStr) (fixups : List (Text → Text)) :
    Keeps below (parseWithFixups fromStr fixups) := by
  have htry : ∀ (err : E) (fixups : List (Text → Text)) (input : Text) (s : Interner),
      Sound below s →
        Allows (Sound below) (tryFixups fromStr err fixups input) s fun _ _ => True := by
    intro err fixups
    induction fixups with
    | nil => exact fun _ _ hsound => .pure hsound trivial
    | cons fixup rest ih =>
        intro input s hsound
        rw [tryFixups]
        split
        · apply (hkeeps _ s hsound).bind
          intro result s' hsound' _ _
          cases result with
          | ok requirement => exact .pure hsound' trivial
          | error _ => exact ih _ s' hsound'
        · exact ih input s hsound
  intro text s hsound
  apply (hkeeps text s hsound).bind
  intro result s' hsound' _ _
  cases result with
  | ok requirement => exact .pure hsound' trivial
  | error err => exact htry err fixups text s' hsound'

end Parse

/-! ## Requirements in sections -/

section Conjoined

variable [Alphabetic] [RangeOps ValidVersion] [RangeOps Text]

/-- `LenientRequirement::from_str`. -/
def LenientRequirement.fromStr {UrlError : Type} (fixups : List (Text → Text))
    (expandEnvVars : Text → Text) (parseUrl : Text → Except UrlError Url) :
    Text → InternerM (Except (RequirementError UrlError) (Requirement Url)) :=
  parseWithFixups (Requirement.fromStr expandEnvVars parseUrl) fixups

/-- In every reachable state, each line that is a requirement gives one that only differs in
its marker.  It applies where its own marker and its section do iff its own marker is true
everywhere in the section. -/
theorem RequiresTxt.conjoined_iff {UrlError : Type} {fixups : List (Text → Text)}
    {expandEnvVars : Text → Text} {parseUrl : Text → Except UrlError Url} {s s' : Interner}
    (hreach : Reachable s) {content : Text} {result : Sections Url}
    (hrun : (RequiresTxt.parse (LenientRequirement.fromStr fixups expandEnvVars parseUrl)
      content).run s = some (.ok result, s')) :
    ∃ items, Reads (LenientRequirement.fromStr fixups expandEnvVars parseUrl) (lines content)
        ⟨none, none⟩ s items s' ∧
      List.Forall₂ (fun item requirement =>
        requirement = { item.2 with marker := requirement.marker } ∧
          ∀ env extras, item.1.Plain s' env →
            ((s'.evaluate env extras requirement.marker = true ↔
                s'.evaluate env extras item.2.marker = true ∧
                  item.1.applies s' env extras = true) ↔
              (item.1.applies s' env extras = true →
                s'.evaluate env extras item.2.marker = true))) items result.requiresDist := by
  have hkeeps : Keeps Variable.Below
      (LenientRequirement.fromStr fixups expandEnvVars parseUrl) :=
    Keeps.parseWithFixups (fun text _ hsound =>
      Requirement.fromStr_allows expandEnvVars parseUrl hsound text) fixups
  have htree : Section.HasTree Variable.Below ⟨none, none⟩ s .TRUE :=
    fun s'' _ _ env extras _ => evaluate_true env extras s''
  obtain ⟨items, hreads, _, _, added, hdist, hitems⟩ :=
    parseLines_reads hkeeps hreach.sound htree hrun
  refine ⟨items, hreads, ?_⟩
  rw [hdist, List.nil_append]
  exact hitems.imp fun item requirement hitem =>
    ⟨hitem.same, fun env extras hplain => hitem.applies_iff hplain⟩

end Conjoined

section Concrete

/-- Enough for markers whose operators start in ASCII. -/
local instance sectionAlphabetic : Alphabetic := asciiAlphabetic

/-- Requirements are read as they are, and every URL is one. -/
private def plainLenient : Text → InternerM (Except (RequirementError Unit) (Requirement Unit)) :=
  LenientRequirement.fromStr [] id fun _ => .ok ()

/-- Two requirements, the second one in a section with an extra and a marker. -/
private def twoLines : Text :=
  "a\n[dev:os_name == 'posix']\nb ; os_name == 'posix'\n".toList

theorem RequiresTxt.conjoined_iff_twoLines : ∃ result s' items,
    (RequiresTxt.parse plainLenient twoLines).run Interner.default = some (.ok result, s') ∧
      result.requiresDist.length = 2 ∧
      List.Forall₂ (fun (item : Section × Requirement Unit) requirement =>
        ∀ env extras, item.1.Plain s' env →
          (item.1.applies s' env extras = true → s'.evaluate env extras item.2.marker = true) →
            (s'.evaluate env extras requirement.marker = true ↔
              s'.evaluate env extras item.2.marker = true ∧
                item.1.applies s' env extras = true)) items result.requiresDist := by
  have hruns : ((RequiresTxt.parse plainLenient twoLines).run Interner.default).map
      (fun read => read.1.toOption.map (·.requiresDist.length)) = some (some 2) := by
    decide +kernel
  obtain ⟨⟨result, s'⟩, hrun, hlength⟩ := Option.map_eq_some_iff.mp hruns
  cases result with
  | error e => cases hlength
  | ok result =>
      obtain ⟨items, _, hitems⟩ := RequiresTxt.conjoined_iff .default hrun
      refine ⟨result, s', items, hrun, Option.some.inj hlength, ?_⟩
      exact hitems.imp fun item requirement hitem env extras hplain hown =>
        (hitem.2 env extras hplain).mpr hown

/-- Before any header, a requirement for Windows applies on Linux. -/
theorem requiresTxt_drops_marker :
    ((RequiresTxt.parse plainLenient "a ; os_name == 'nt'".toList).run Interner.default).map
        (fun read => read.1.toOption.map fun result => result.requiresDist.map fun requirement =>
          read.2.evaluate linuxEnvironment (.extras []) requirement.marker) =
      some (some [true]) ∧
    ((plainLenient "a ; os_name == 'nt'".toList).run Interner.default).map
        (fun read => read.1.toOption.map fun requirement =>
          read.2.evaluate linuxEnvironment (.extras []) requirement.marker) =
      some (some false) := by
  constructor
  · decide +kernel
  · decide +kernel

end Concrete

end Uv.PypiTypes
