import Uv.Requirements.Parse

/-!
# Relative paths

A path relative to a base climbs from the base to what both have in common.  A base that
climbs further above the working directory than the path is climbed the wrong way.

Paths are those of Unix, as their components.
-/

namespace Uv.Fs

open Uv.Requirements

/-! ## `relative_to` -/

/-- One component of `normalized`. -/
def normalizeStep (normalized : PathBuf) : Component → PathBuf
  | .root => normalized.join [.root]
  | .normal name => normalized.join [.normal name]
  | .parent =>
      match normalized.getLast? with
      -- Preserve leading and above-root components.
      | none | some .parent | some .root => normalized.join [.parent]
      | some (.normal _) | some .cur => normalized.dropLast
  | .cur => normalized

def normalized (path : PathBuf) : PathBuf := path.foldl normalizeStep []

def normalizePath (path : PathBuf) : PathBuf :=
  if .parent ∉ path ∧ .cur ∉ path then path else normalized path

theorem length_lt_of_parent {path front : PathBuf} (hparent : path.parent = some front) :
    front.length < path.length := by
  unfold PathBuf.parent at hparent
  split at hparent
  · cases hparent
  · cases hparent
  · rename_i hlast
    cases hparent
    have hpos := List.length_pos_iff.mpr (List.ne_nil_of_mem (List.mem_of_getLast? hlast))
    rw [List.length_dropLast]
    omega

/-- `Path::ancestors`. -/
def ancestors (path : PathBuf) : List PathBuf :=
  path :: match hparent : path.parent with
    | none => []
    | some front => ancestors front
termination_by path.length
decreasing_by exact length_lt_of_parent hparent

/-- `Path::strip_prefix`. -/
def stripPrefix (path base : PathBuf) : Option PathBuf :=
  if base <+: path then some (path.drop base.length) else none

/-- The path without the longest prefix that it shares with the base, and the prefix. -/
def findCommon (path base : PathBuf) : Option (PathBuf × PathBuf) :=
  (ancestors base).findSome? fun ancestor =>
    (stripPrefix path ancestor).map fun stripped => (stripped, ancestor)

/-- Nothing stands for an error. -/
def relativeTo (path base : PathBuf) : Option PathBuf :=
  let path := normalizePath path
  let base := normalizePath base
  (findCommon path base).map fun found =>
    PathBuf.join (List.replicate (base.length - found.2.length) .parent) found.1

/-! ## Locations -/

def walkComponent (place : List String) : Component → List String
  | .root => []
  | .cur => place
  | .parent => place.dropLast
  | .normal name => place ++ [name]

/-- The location that a path denotes, without symbolic links; above the root is the root. -/
def locate (workingDirectory : List String) (path : PathBuf) : List String :=
  path.foldl walkComponent workingDirectory

theorem locate_append (place : List String) (front back : PathBuf) :
    locate place (front ++ back) = locate (locate place front) back :=
  List.foldl_append

/-- What a path looks like: a root and a current directory are at its start. -/
def IsPath (path : PathBuf) : Prop :=
  ∀ component ∈ path.tail, component ≠ .root ∧ component ≠ .cur

/-- A normalized path: only a root or other parents come before a parent. -/
structure Normal (path : PathBuf) : Prop where
  ordered : path.Pairwise fun before after =>
    after ≠ .root ∧ (after = .parent → before = .root ∨ before = .parent)
  noCur : .cur ∉ path

theorem Normal.right {front back : PathBuf} (hnormal : Normal (front ++ back)) : Normal back :=
  ⟨(List.pairwise_append.mp hnormal.ordered).2.1,
    fun hcur => hnormal.noCur (List.mem_append_right _ hcur)⟩

theorem Normal.left {front back : PathBuf} (hnormal : Normal (front ++ back)) : Normal front :=
  ⟨(List.pairwise_append.mp hnormal.ordered).1,
    fun hcur => hnormal.noCur (List.mem_append_left _ hcur)⟩

/-- What comes after the start of a normalized path has no root. -/
theorem Normal.root_notMem {front back : PathBuf} (hnormal : Normal (front ++ back))
    (hstart : front ≠ [] ∨ back.head? ≠ some .root) : .root ∉ back := by
  intro hmem
  rcases hstart with hfront | hback
  · obtain ⟨first, rest, rfl⟩ := List.exists_cons_of_ne_nil hfront
    have hordered := (List.pairwise_append.mp hnormal.ordered).2.2
    exact absurd rfl (hordered first List.mem_cons_self .root hmem).1
  · cases back with
    | nil => cases hmem
    | cons first rest =>
        rcases List.mem_cons.mp hmem with rfl | hmem
        · exact hback rfl
        · exact absurd rfl ((List.pairwise_cons.mp hnormal.right.ordered).1 .root hmem).1

/-- A parent in a normalized path comes first, after the root. -/
theorem Normal.head_of_mem {path : PathBuf} (hnormal : Normal path) (hmem : .parent ∈ path) :
    path.head? = some .root ∨ path.head? = some .parent := by
  cases path with
  | nil => cases hmem
  | cons first rest =>
      rcases List.mem_cons.mp hmem with rfl | hmem
      · exact Or.inr rfl
      · have hfirst := (List.pairwise_cons.mp hnormal.ordered).1 .parent hmem
        exact (hfirst.2 rfl).imp (congrArg some) (congrArg some)

theorem join_singleton {path : PathBuf} {component : Component} (hroot : component ≠ .root)
    (hcur : component ≠ .cur) : path.join [component] = path ++ [component] := by
  unfold PathBuf.join
  rw [if_neg (by simpa using hroot)]
  split_ifs with hnil
  · rw [hnil]
    rfl
  · simp [hcur]

theorem normal_append {path : PathBuf} {component : Component} (hnormal : Normal path)
    (hroot : component ≠ .root) (hcur : component ≠ .cur)
    (hparent : component = .parent → ∀ before ∈ path, before = .root ∨ before = .parent) :
    Normal (path ++ [component]) := by
  constructor
  · rw [List.pairwise_append]
    refine ⟨hnormal.ordered, List.pairwise_singleton _ _, ?_⟩
    intro before hbefore after hafter
    rw [List.mem_singleton.mp hafter]
    exact ⟨hroot, fun h => hparent h before hbefore⟩
  · simp [hnormal.noCur, Ne.symm hcur]

/-- A step keeps the form of the path and goes where the component leads. -/
theorem normalizeStep_spec {path : PathBuf} (hnormal : Normal path) (component : Component) :
    Normal (normalizeStep path component) ∧ ∀ place,
      locate place (normalizeStep path component) =
        walkComponent (locate place path) component := by
  cases component with
  | root =>
      have hjoin : path.join [.root] = [.root] := rfl
      rw [normalizeStep, hjoin]
      exact ⟨⟨List.pairwise_singleton _ _, by simp⟩, fun _ => rfl⟩
  | cur => exact ⟨hnormal, fun _ => rfl⟩
  | normal name =>
      rw [normalizeStep, join_singleton (by simp) (by simp)]
      exact ⟨normal_append hnormal (by simp) (by simp) (by simp),
        fun place => locate_append place path [.normal name]⟩
  | parent =>
      have hkeep (hall : ∀ before ∈ path, before = .root ∨ before = .parent) :
          Normal (path.join [.parent]) ∧ ∀ place,
            locate place (path.join [.parent]) = walkComponent (locate place path) .parent := by
        rw [join_singleton (by simp) (by simp)]
        exact ⟨normal_append hnormal (by simp) (by simp) fun _ => hall,
          fun place => locate_append place path [.parent]⟩
      rw [normalizeStep]
      cases hlast : path.getLast? with
      | none =>
          apply hkeep
          rw [List.getLast?_eq_none_iff.mp hlast]
          simp
      | some last =>
          obtain ⟨front, rfl⟩ := List.getLast?_eq_some_iff.mp hlast
          have hbefore := fun before hmem =>
            (List.pairwise_append.mp hnormal.ordered).2.2 before hmem last (by simp)
          cases last with
          | root =>
              apply hkeep
              intro before hmem
              rcases List.mem_append.mp hmem with hmem | hmem
              · exact absurd rfl (hbefore before hmem).1
              · exact Or.inl (List.mem_singleton.mp hmem)
          | parent =>
              apply hkeep
              intro before hmem
              rcases List.mem_append.mp hmem with hmem | hmem
              · exact (hbefore before hmem).2 rfl
              · exact Or.inr (List.mem_singleton.mp hmem)
          | cur => exact absurd (by simp) hnormal.noCur
          | normal name =>
              simp only [List.dropLast_concat]
              refine ⟨⟨(List.pairwise_append.mp hnormal.ordered).1,
                fun hcur => hnormal.noCur (List.mem_append_left _ hcur)⟩, fun place => ?_⟩
              rw [locate_append]
              simp [locate, walkComponent]

theorem normalized_spec {start : PathBuf} (hstart : Normal start) (path : PathBuf) :
    Normal (path.foldl normalizeStep start) ∧ ∀ place,
      locate place (path.foldl normalizeStep start) = locate (locate place start) path := by
  induction path generalizing start with
  | nil => exact ⟨hstart, fun _ => rfl⟩
  | cons component rest ih =>
      obtain ⟨hnormal, hstep⟩ := normalizeStep_spec hstart component
      obtain ⟨hrest, hlocate⟩ := ih hnormal
      refine ⟨hrest, fun place => ?_⟩
      rw [List.foldl_cons, hlocate, hstep]
      rfl

/-- Normalizing a path keeps its location. -/
theorem normalizePath_spec {path : PathBuf} (hpath : IsPath path) :
    Normal (normalizePath path) ∧ ∀ place,
      locate place (normalizePath path) = locate place path := by
  rw [normalizePath]
  split_ifs with hplain
  · refine ⟨⟨?_, hplain.2⟩, fun _ => rfl⟩
    cases path with
    | nil => exact List.Pairwise.nil
    | cons first rest =>
        rw [List.pairwise_iff_forall_sublist]
        intro before after hsublist
        have hafter : after ∈ rest := by
          cases hsublist with
          | cons _ h => exact h.subset (by simp)
          | cons_cons _ h => exact h.subset (by simp)
        refine ⟨(hpath after hafter).1, ?_⟩
        rintro rfl
        exact absurd (List.mem_cons_of_mem _ hafter) hplain.1
  · exact normalized_spec ⟨List.Pairwise.nil, by simp⟩ path

theorem head_normalizeStep {path : PathBuf} {component : Component}
    (hcomponent : component ≠ .root) :
    (normalizeStep path component).head? = some .root ↔ path.head? = some .root := by
  have happend : ∀ other : Component, other ≠ .root →
      ((path ++ [other]).head? = some .root ↔ path.head? = some .root) := by
    intro other hother
    cases path <;> simp [hother]
  cases component with
  | root => exact absurd rfl hcomponent
  | cur => exact Iff.rfl
  | normal name =>
      rw [normalizeStep, join_singleton (by simp) (by simp)]
      exact happend _ (by simp)
  | parent =>
      have hkeep : (path.join [.parent]).head? = some .root ↔ path.head? = some .root := by
        rw [join_singleton (by simp) (by simp)]
        exact happend _ (by simp)
      have hdrop : ∀ last : Component, last ≠ .root → path.getLast? = some last →
          (path.dropLast.head? = some .root ↔ path.head? = some .root) := by
        intro last hlast heq
        obtain ⟨front, rfl⟩ := List.getLast?_eq_some_iff.mp heq
        rw [List.dropLast_concat]
        cases front <;> simp [hlast]
      rw [normalizeStep]
      cases hlast : path.getLast? with
      | none => exact hkeep
      | some last =>
          cases last with
          | root => exact hkeep
          | parent => exact hkeep
          | cur => exact hdrop _ (by simp) hlast
          | normal name => exact hdrop _ (by simp) hlast

theorem head_foldl_normalizeStep {path start : PathBuf}
    (hpath : ∀ component ∈ path, component ≠ .root) :
    (path.foldl normalizeStep start).head? = some .root ↔ start.head? = some .root := by
  induction path generalizing start with
  | nil => exact Iff.rfl
  | cons component rest ih =>
      rw [List.foldl_cons, ih fun other hother => hpath other (List.mem_cons_of_mem _ hother),
        head_normalizeStep (hpath component List.mem_cons_self)]

/-- A normalized path starts with a root iff the path does. -/
theorem head_normalizePath {path : PathBuf} (hpath : IsPath path) :
    (normalizePath path).head? = some .root ↔ path.head? = some .root := by
  rw [normalizePath]
  split_ifs
  · exact Iff.rfl
  · rw [normalized]
    cases path with
    | nil => exact Iff.rfl
    | cons first rest =>
        have hrest : (rest.foldl normalizeStep (normalizeStep [] first)).head? = some .root ↔
            (normalizeStep [] first).head? = some .root :=
          head_foldl_normalizeStep fun component hcomponent => (hpath component hcomponent).1
        rw [List.foldl_cons, hrest]
        cases first <;> simp [normalizeStep, PathBuf.join]

/-! ## The common part -/

theorem ancestors_eq (path : PathBuf) :
    ancestors path = path :: (path.parent.map ancestors).getD [] := by
  rw [ancestors]
  split <;> simp [*]

/-- Where a base with no other root than a path has is no prefix of it, it has a parent. -/
theorem parent_of_not_prefix {path front : PathBuf} {last : Component}
    (hbase : Normal (front ++ [last]))
    (hroot : (front ++ [last]).head? = some .root → path.head? = some .root)
    (hoff : ¬ front ++ [last] <+: path) : PathBuf.parent (front ++ [last]) = some front := by
  have hnotRoot : last ≠ .root := by
    rintro rfl
    by_cases hfront : front = []
    · rw [hfront] at hroot hoff
      obtain ⟨rest, rfl⟩ := List.head?_eq_some_iff.mp (hroot rfl)
      exact hoff (List.prefix_append [_] rest)
    · exact hbase.root_notMem (Or.inl hfront) List.mem_cons_self
  rw [PathBuf.parent, List.getLast?_concat, List.dropLast_concat]
  cases last <;> first | exact absurd rfl hnotRoot | rfl

/-- Of paths that both have a root or both have none, the longest common prefix is found. -/
theorem findCommon_spec {path base : PathBuf} (hbase : Normal base)
    (hroot : base.head? = some .root → path.head? = some .root) :
    ∃ common rest stripped, base = common ++ rest ∧ path = common ++ stripped ∧
      findCommon path base = some (stripped, common) ∧
      ∀ component, rest.head? = some component → stripped.head? ≠ some component := by
  induction hlength : base.length using Nat.strong_induction_on generalizing base with
  | _ n ih =>
      by_cases hprefix : base <+: path
      · obtain ⟨stripped, rfl⟩ := hprefix
        refine ⟨base, [], stripped, (List.append_nil base).symm, rfl, ?_, by simp⟩
        rw [findCommon, ancestors_eq, List.findSome?_cons, stripPrefix,
          if_pos (List.prefix_append base stripped), List.drop_left]
        rfl
      · cases hlast : base.getLast? with
        | none =>
            rw [List.getLast?_eq_none_iff.mp hlast] at hprefix
            exact absurd List.nil_prefix hprefix
        | some last =>
            obtain ⟨front, rfl⟩ := List.getLast?_eq_some_iff.mp hlast
            have hparent := parent_of_not_prefix hbase hroot hprefix
            have hrootFront : front.head? = some .root → path.head? = some .root := by
              intro hhead
              apply hroot
              rw [List.head?_append, hhead]
              rfl
            obtain ⟨common, rest, stripped, hsplit, hpath, hfound, hdiffer⟩ :=
              ih front.length (by rw [← hlength]; simp) hbase.left hrootFront rfl
            refine ⟨common, rest ++ [last], stripped, ?_, hpath, ?_, ?_⟩
            · rw [hsplit, List.append_assoc]
            · rw [findCommon, ancestors_eq, List.findSome?_cons, stripPrefix, if_neg hprefix,
                hparent]
              exact hfound
            · intro component hhead
              cases rest with
              | nil =>
                  cases hhead
                  intro hstripped
                  apply hprefix
                  cases stripped with
                  | nil => cases hstripped
                  | cons first others =>
                      cases hstripped
                      rw [List.append_nil] at hsplit
                      exact ⟨others, by rw [hpath, hsplit]; simp⟩
              | cons first rest => exact hdiffer component hhead

/-! ## Climbing -/

/-- Names are climbed again by as many parents. -/
theorem locate_climb {names : PathBuf} (hnames : ∀ component ∈ names,
    ∃ name, component = .normal name) (place : List String) :
    locate (locate place names) (List.replicate names.length .parent) = place := by
  induction names generalizing place with
  | nil => rfl
  | cons component rest ih =>
      obtain ⟨name, rfl⟩ := hnames component List.mem_cons_self
      have hrest := ih (fun other hother => hnames other (List.mem_cons_of_mem _ hother))
        (place ++ [name])
      calc locate (locate place (.normal name :: rest))
            (List.replicate (.normal name :: rest).length .parent)
          = locate (locate (locate (place ++ [name]) rest)
              (List.replicate rest.length .parent)) [.parent] := by
            rw [List.length_cons, List.replicate_succ', locate_append]
            rfl
        _ = place := by
            rw [hrest]
            exact List.dropLast_concat

/-- Far from the root, a parent takes one name away and every other component adds one. -/
theorem length_locate {path : PathBuf} (hpath : ∀ component ∈ path,
    component ≠ .root ∧ component ≠ .cur) {place : List String}
    (hplace : path.count .parent ≤ place.length) :
    (locate place path).length + 2 * path.count .parent = place.length + path.length := by
  induction path generalizing place with
  | nil => simp [locate]
  | cons component rest ih =>
      have hrest := fun other hother => hpath other (List.mem_cons_of_mem _ hother)
      obtain ⟨hroot, hcur⟩ := hpath component List.mem_cons_self
      cases component with
      | root => exact absurd rfl hroot
      | cur => exact absurd rfl hcur
      | parent =>
          rw [List.count_cons_self] at hplace ⊢
          have hlength : place.dropLast.length = place.length - 1 := List.length_dropLast
          have hshort : rest.count .parent ≤ place.dropLast.length := by omega
          have hstep := ih hrest hshort
          change (locate place.dropLast rest).length + _ = _
          rw [List.length_cons]
          omega
      | normal name =>
          rw [List.count_cons_of_ne (by simp)] at hplace ⊢
          have hshort : rest.count .parent ≤ (place ++ [name]).length := by
            rw [List.length_append]
            omega
          have hstep := ih hrest hshort
          rw [List.length_append, List.length_singleton] at hstep
          change (locate (place ++ [name]) rest).length + _ = _
          rw [List.length_cons]
          omega

theorem locate_parents (place : List String) (n : ℕ) :
    locate place (List.replicate n .parent) = place.take (place.length - n) := by
  induction n with
  | zero => simp [locate]
  | succ n ih =>
      rw [List.replicate_succ', locate_append, ih]
      change (place.take (place.length - n)).dropLast = _
      rw [List.dropLast_eq_take, List.take_take, List.length_take]
      congr 1
      omega

theorem length_locate_le (place : List String) (path : PathBuf) :
    (locate place path).length ≤ place.length + path.length := by
  induction path generalizing place with
  | nil => exact Nat.le_refl _
  | cons component rest ih =>
      have hrest := ih (walkComponent place component)
      have hstep : (walkComponent place component).length ≤ place.length + 1 := by
        cases component with
        | parent =>
            rw [walkComponent, List.length_dropLast]
            omega
        | _ => simp [walkComponent]
      change (locate (walkComponent place component) rest).length ≤ _
      rw [List.length_cons]
      omega

/-! ## Joining -/

theorem join_eq_append {path other : PathBuf} (hroot : .root ∉ other) (hcur : .cur ∉ other) :
    path.join other = path ++ other := by
  have hhead : other.head? ≠ some .root := fun h => hroot (List.mem_of_mem_head? h)
  have hfilter : other.filter (· ≠ .cur) = other := by
    rw [List.filter_eq_self]
    intro component hcomponent
    apply decide_eq_true
    rintro rfl
    exact hcur hcomponent
  rw [PathBuf.join, if_neg hhead, hfilter]
  split_ifs with hnil
  · rw [hnil, List.nil_append]
  · rfl

/-- The parts of two normalized paths after what they have in common. -/
structure Parts (path base common rest stripped : PathBuf) : Prop where
  pathNormal : Normal path
  baseNormal : Normal base
  path_eq : path = common ++ stripped
  base_eq : base = common ++ rest
  rootRest : .root ∉ rest
  rootStripped : .root ∉ stripped
  differ : ∀ component, rest.head? = some component → stripped.head? ≠ some component

theorem exists_parts {path base : PathBuf} (hpath : IsPath path) (hbase : IsPath base)
    (hkind : path.head? = some .root ↔ base.head? = some .root) :
    ∃ common rest stripped,
      Parts (normalizePath path) (normalizePath base) common rest stripped ∧
        relativeTo path base = some (List.replicate rest.length .parent ++ stripped) := by
  have hpathNormal := (normalizePath_spec hpath).1
  have hbaseNormal := (normalizePath_spec hbase).1
  have hsame : (normalizePath path).head? = some .root ↔
      (normalizePath base).head? = some .root := by
    rw [head_normalizePath hpath, head_normalizePath hbase, hkind]
  obtain ⟨common, rest, stripped, hbaseEq, hpathEq, hfound, hdiffer⟩ :=
    findCommon_spec hbaseNormal hsame.mpr
  have hroots : common ≠ [] ∨ rest.head? ≠ some .root ∧ stripped.head? ≠ some .root := by
    by_cases hcommon : common = []
    · subst hcommon
      right
      rw [hpathEq, hbaseEq, List.nil_append, List.nil_append] at hsame
      constructor
      · exact fun h => hdiffer .root h (hsame.mpr h)
      · exact fun h => hdiffer .root (hsame.mp h) h
    · exact Or.inl hcommon
  have hparts : Parts (normalizePath path) (normalizePath base) common rest stripped := by
    refine ⟨hpathNormal, hbaseNormal, hpathEq, hbaseEq, ?_, ?_, hdiffer⟩
    · rw [hbaseEq] at hbaseNormal
      exact hbaseNormal.root_notMem (hroots.imp id And.left)
    · rw [hpathEq] at hpathNormal
      exact hpathNormal.root_notMem (hroots.imp id And.right)
  refine ⟨common, rest, stripped, hparts, ?_⟩
  have hcur : .cur ∉ stripped := by
    rw [hpathEq] at hpathNormal
    exact hpathNormal.right.noCur
  have hlevels : (normalizePath base).length - common.length = rest.length := by
    rw [hbaseEq, List.length_append]
    omega
  rw [relativeTo, hfound, Option.map_some, hlevels, join_eq_append hparts.rootStripped hcur]

namespace Parts

variable {path base common rest stripped : PathBuf}

theorem restNormal (hparts : Parts path base common rest stripped) : Normal rest := by
  have hnormal := hparts.baseNormal
  rw [hparts.base_eq] at hnormal
  exact hnormal.right

theorem strippedNormal (hparts : Parts path base common rest stripped) : Normal stripped := by
  have hnormal := hparts.pathNormal
  rw [hparts.path_eq] at hnormal
  exact hnormal.right

/-- If the base goes on with a parent, the path does not. -/
theorem parent_notMem (hparts : Parts path base common rest stripped) (hmem : .parent ∈ rest) :
    .parent ∉ stripped := by
  intro hmem'
  have hrest : rest.head? = some .parent := by
    rcases hparts.restNormal.head_of_mem hmem with h | h
    · exact absurd (List.mem_of_mem_head? h) hparts.rootRest
    · exact h
  have hstripped : stripped.head? = some .parent := by
    rcases hparts.strippedNormal.head_of_mem hmem' with h | h
    · exact absurd (List.mem_of_mem_head? h) hparts.rootStripped
    · exact h
  exact hparts.differ .parent hrest hstripped

theorem climbs_iff (hparts : Parts path base common rest stripped) :
    base.count .parent ≤ path.count .parent ↔ .parent ∉ rest := by
  rw [hparts.path_eq, hparts.base_eq, List.count_append, List.count_append]
  constructor
  · intro hle hmem
    have hstripped := List.count_eq_zero.mpr (hparts.parent_notMem hmem)
    have hrest := List.count_pos_iff.mpr hmem
    omega
  · intro hrest
    rw [List.count_eq_zero.mpr hrest]
    omega

/-- The names of the base are climbed again. -/
theorem locate_of_names (hparts : Parts path base common rest stripped)
    (hrest : .parent ∉ rest) (place : List String) :
    locate (locate place base) (List.replicate rest.length .parent ++ stripped) =
      locate place path := by
  have hnames : ∀ component ∈ rest, ∃ name, component = .normal name := by
    intro component hcomponent
    cases component with
    | root => exact absurd hcomponent hparts.rootRest
    | cur => exact absurd hcomponent hparts.restNormal.noCur
    | parent => exact absurd hcomponent hrest
    | normal name => exact ⟨name, rfl⟩
  rw [hparts.base_eq, hparts.path_eq, locate_append, locate_append, locate_append,
    locate_climb hnames]

/-- Below a root, climbing too far leads to the root, where the path starts. -/
theorem locate_of_root (hparts : Parts path base common rest stripped)
    (hmem : .parent ∈ rest) (hroot : base.head? = some .root) (place : List String) :
    locate (locate place base) (List.replicate rest.length .parent ++ stripped) =
      locate place path := by
  have hcommon : locate place common = [] := by
    have hnormal := hparts.baseNormal
    rw [hparts.base_eq] at hnormal hroot
    have hbefore := fun component hcomponent =>
      ((List.pairwise_append.mp hnormal.ordered).2.2 component hcomponent .parent hmem).2 rfl
    cases common with
    | nil =>
        rw [List.nil_append] at hroot
        exact absurd (List.mem_of_mem_head? hroot) hparts.rootRest
    | cons first others =>
        cases hroot
        have hstay : ∀ path : PathBuf, (∀ component ∈ path,
            component = .root ∨ component = .parent) → locate [] path = [] := by
          intro path hpath
          induction path with
          | nil => rfl
          | cons component tail ih =>
              have htail := ih fun other hother => hpath other (List.mem_cons_of_mem _ hother)
              rcases hpath component List.mem_cons_self with rfl | rfl
              · exact htail
              · exact htail
        exact hstay others fun component hcomponent =>
          hbefore component (List.mem_cons_of_mem _ hcomponent)
  have hshort := length_locate_le [] rest
  have hclimb : locate (locate [] rest) (List.replicate rest.length .parent) = [] := by
    rw [locate_parents, List.take_eq_nil_iff]
    left
    rw [List.length_nil] at hshort
    omega
  rw [hparts.base_eq, hparts.path_eq, locate_append, locate_append, locate_append, hcommon,
    hclimb]

theorem baseJoined_plain (hparts : Parts path base common rest stripped)
    (hroot : base.head? ≠ some .root) (component : Component)
    (hcomponent : component ∈ base ++ (List.replicate rest.length .parent ++ stripped)) :
    component ≠ .root ∧ component ≠ .cur := by
  have hbaseRoot : .root ∉ base := by
    have hnormal := hparts.baseNormal
    rw [← List.nil_append base] at hnormal
    exact hnormal.root_notMem (Or.inr hroot)
  simp only [List.mem_append, List.mem_replicate] at hcomponent
  rcases hcomponent with h | ⟨-, rfl⟩ | h
  · exact ⟨fun heq => hbaseRoot (heq ▸ h), fun heq => hparts.baseNormal.noCur (heq ▸ h)⟩
  · simp
  · exact ⟨fun heq => hparts.rootStripped (heq ▸ h),
      fun heq => hparts.strippedNormal.noCur (heq ▸ h)⟩

/-- Without a root, there is a working directory from which it leads elsewhere. -/
theorem exists_ne (hparts : Parts path base common rest stripped) (hmem : .parent ∈ rest)
    (hroot : base.head? ≠ some .root) :
    ∃ place, locate (locate place base) (List.replicate rest.length .parent ++ stripped) ≠
      locate place path := by
  have hplain := hparts.baseJoined_plain hroot
  have hplainPath : ∀ component ∈ path, component ≠ .root ∧ component ≠ .cur := by
    intro component hcomponent
    rw [hparts.path_eq] at hcomponent
    apply hplain
    rw [hparts.base_eq]
    simp only [List.mem_append] at hcomponent ⊢
    tauto
  have hstripped := List.count_eq_zero.mpr (hparts.parent_notMem hmem)
  have hrest := List.count_pos_iff.mpr hmem
  obtain ⟨place, hplace⟩ : ∃ place : List String,
      place.length = base.length + (rest.length + stripped.length) + path.length :=
    ⟨List.replicate _ "", List.length_replicate⟩
  refine ⟨place, fun heq => ?_⟩
  have hcountPath : path.count .parent ≤ place.length := by
    have hle : path.count .parent ≤ path.length := List.count_le_length
    omega
  have hcountBase : base.count .parent ≤ base.length := List.count_le_length
  have hcount :
      (base ++ (List.replicate rest.length Component.parent ++ stripped)).count
        Component.parent = base.count .parent + rest.length := by
    rw [List.count_append, List.count_append, List.count_replicate_self, hstripped]
    rfl
  have hcountBoth :
      (base ++ (List.replicate rest.length Component.parent ++ stripped)).count
        Component.parent ≤ place.length := by omega
  have hleft := length_locate hplain hcountBoth
  have hright := length_locate hplainPath hcountPath
  have hbaseCount := congrArg (List.count Component.parent) hparts.base_eq
  have hpathCount := congrArg (List.count Component.parent) hparts.path_eq
  have hbaseLength := congrArg List.length hparts.base_eq
  have hpathLength := congrArg List.length hparts.path_eq
  rw [← locate_append] at heq
  rw [heq, hcount] at hleft
  simp only [List.count_append, List.length_append, List.length_replicate] at *
  omega

end Parts

/-- The base joined with the result denotes the path from every working directory, exactly
if the paths are absolute or the base climbs no further above the working directory than
the path. -/
theorem relativeTo_denotes_iff {path base : PathBuf} (hpath : IsPath path) (hbase : IsPath base)
    (hkind : path.head? = some .root ↔ base.head? = some .root) :
    ∃ relative, relativeTo path base = some relative ∧
      ((∀ workingDirectory, locate workingDirectory (base.join relative) =
          locate workingDirectory path) ↔
        base.head? = some .root ∨
          (normalizePath base).count .parent ≤ (normalizePath path).count .parent) := by
  obtain ⟨common, rest, stripped, hparts, hrelative⟩ := exists_parts hpath hbase hkind
  refine ⟨_, hrelative, ?_⟩
  have hjoin : ∀ place, locate place (base.join (List.replicate rest.length .parent ++ stripped)) =
      locate (locate place (normalizePath base))
        (List.replicate rest.length .parent ++ stripped) := by
    intro place
    rw [join_eq_append, locate_append, (normalizePath_spec hbase).2]
    · simp [hparts.rootStripped]
    · simp [hparts.strippedNormal.noCur]
  rw [hparts.climbs_iff, ← head_normalizePath hbase]
  constructor
  · intro hdenotes
    by_contra hcondition
    rw [not_or, not_not] at hcondition
    obtain ⟨place, hne⟩ := hparts.exists_ne hcondition.2 hcondition.1
    apply hne
    rw [← hjoin, hdenotes, (normalizePath_spec hpath).2]
  · intro hcondition place
    rw [hjoin, ← (normalizePath_spec hpath).2]
    by_cases hmem : .parent ∈ rest
    · exact hparts.locate_of_root hmem (hcondition.resolve_right (not_not.mpr hmem)) place
    · exact hparts.locate_of_names hmem place

/-- A base below the path, and both below the working directory's parent. -/
theorem relativeTo_denotes_iff_sibling :
    ∃ relative, relativeTo [.parent, .normal "a"] [.parent, .normal "b", .normal "c"] =
        some relative ∧
      ((∀ workingDirectory, locate workingDirectory
          (PathBuf.join [.parent, .normal "b", .normal "c"] relative) =
          locate workingDirectory [.parent, .normal "a"]) ↔
        [Component.parent, .normal "b", .normal "c"].head? = some .root ∨
          (normalizePath [.parent, .normal "b", .normal "c"]).count .parent ≤
            (normalizePath [.parent, .normal "a"]).count .parent) :=
  relativeTo_denotes_iff (by unfold IsPath; decide) (by unfold IsPath; decide) (by decide)

/-- From the directory `x` to the parent of the working directory. -/
theorem not_relativeTo_denotes :
    ¬ ∀ path base relative, IsPath path → IsPath base →
      (path.head? = some .root ↔ base.head? = some .root) →
        relativeTo path base = some relative → ∀ workingDirectory,
          locate workingDirectory (base.join relative) = locate workingDirectory path := by
  intro hdenotes
  have hresult : relativeTo [.normal "x"] [.parent] = some [.parent, .normal "x"] := by
    simp [relativeTo, findCommon, ancestors_eq, normalizePath, normalized, normalizeStep,
      PathBuf.parent, PathBuf.join, stripPrefix]
  have hplace := hdenotes [.normal "x"] [.parent] _ (by unfold IsPath; decide)
    (by unfold IsPath; decide) (by decide) hresult ["a", "b", "c"]
  exact absurd hplace (by decide)

end Uv.Fs
