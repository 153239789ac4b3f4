import Uv.Auth.Realm

/-!
# Indexes

An index has a URL at which authentication is applied.  A hash set of indexes has no order of
its own: a lookup goes through it in some order.
-/

namespace Uv.Auth

inductive AuthPolicy where
  | auto
  | always
  | never
  deriving DecidableEq

structure Index where
  url : Url
  /-- The root endpoint where authentication is applied. -/
  rootUrl : Url
  authPolicy : AuthPolicy

namespace Index

def isPrefixFor (index : Index) (url : Url) : Bool :=
  if index.rootUrl.scheme ≠ url.scheme ∨ index.rootUrl.host ≠ url.host ∨
      index.rootUrl.portOrKnownDefault ≠ url.portOrKnownDefault then
    false
  else index.rootUrl.path.isPrefixOf url.path

end Index

/-- A set of indexes, in the order of its iteration. -/
structure Indexes where
  order : List Index
  nodup : order.Nodup

namespace Indexes

/-- What `from_indexes` may make of the indexes: their set, in any order. -/
def IsFrom (indexes : Indexes) (urls : List Index) : Prop :=
  ∀ index, index ∈ indexes.order ↔ index ∈ urls

def findPrefixIndex (indexes : Indexes) (url : Url) : Option Index :=
  indexes.order.find? fun index => index.isPrefixFor url

def indexFor (indexes : Indexes) (url : Url) : Option Index := indexes.findPrefixIndex url

def authPolicyFor (indexes : Indexes) (url : Url) : AuthPolicy :=
  ((indexes.findPrefixIndex url).map Index.authPolicy).getD .auto

end Indexes

/-! ## Segments of paths -/

/-- The segments of a path that are not empty. -/
def segmentsOf (path : Text) : List Text := (path.splitOn '/').filter (!·.isEmpty)

theorem segmentsOf_append_slash (left right : Text) :
    segmentsOf (left ++ '/' :: right) = segmentsOf left ++ segmentsOf right := by
  rw [segmentsOf, List.splitOn_append_cons_self, List.filter_append]
  rfl

theorem segmentsOf_of_noSlash {segment : Text} (hslash : '/' ∉ segment) (hne : segment ≠ []) :
    segmentsOf segment = [segment] := by
  rw [segmentsOf, List.splitOn_eq_singleton hslash]
  simp [hne]

theorem segments_eq (url : Url) : url.segments = segmentsOf url.path := by
  obtain ⟨rest, hpath⟩ : ∃ rest, url.path = '/' :: rest := by
    have hrooted := url.rooted
    cases hpath : url.path with
    | nil =>
        rw [hpath] at hrooted
        cases hrooted
    | cons first rest =>
        rw [hpath] at hrooted
        cases hrooted
        exact ⟨rest, rfl⟩
  rw [Url.segments, Url.pathSegments, hpath]
  exact (segmentsOf_append_slash [] rest).symm

/-- What follows the first path begins a segment. -/
def AtBoundary (path rest : Text) : Prop :=
  path.getLast? = some '/' ∨ rest = [] ∨ rest.head? = some '/'

/-- A text does not become a longer one, and so the segment at the end is cut off. -/
theorem not_prefix_of_cut {left segment rest : Text} (hslash : '/' ∉ segment)
    (hne : segment ≠ []) (hrest : rest ≠ []) (hhead : rest.head? ≠ some '/') :
    ¬ segmentsOf (left ++ '/' :: segment) <+: segmentsOf (left ++ '/' :: (segment ++ rest)) := by
  let more := rest.takeWhile (· ≠ '/')
  have hmore : more ≠ [] := by
    cases rest with
    | nil => exact absurd rfl hrest
    | cons first rest =>
        have hfirst : first ≠ '/' := fun heq => hhead (by rw [heq]; rfl)
        simp [more, hfirst]
  have hsegment : '/' ∉ segment ++ more := by
    rw [List.mem_append, not_or]
    apply And.intro hslash
    intro hmem
    have himp := List.mem_takeWhile_imp hmem
    simp at himp
  have hcut : segment ++ more ≠ [] := by simp [hne]
  obtain ⟨others, hothers⟩ : ∃ others, segmentsOf (segment ++ rest) =
      (segment ++ more) :: others := by
    have hsplit : rest = more ++ rest.dropWhile (· ≠ '/') :=
      (List.takeWhile_append_dropWhile ..).symm
    cases hdrop : rest.dropWhile (· ≠ '/') with
    | nil =>
        rw [hdrop, List.append_nil] at hsplit
        rw [hsplit]
        exact ⟨[], segmentsOf_of_noSlash hsegment hcut⟩
    | cons first after =>
        have hfirst : first = '/' := by
          have hstop := List.head?_dropWhile_not (· ≠ '/') rest
          rw [hdrop] at hstop
          simpa using hstop
        rw [hdrop, hfirst] at hsplit
        refine ⟨segmentsOf after, ?_⟩
        rw [hsplit, ← List.append_assoc, segmentsOf_append_slash,
          segmentsOf_of_noSlash hsegment hcut]
        rfl
  rw [segmentsOf_append_slash, segmentsOf_append_slash, segmentsOf_of_noSlash hslash hne, hothers,
    List.prefix_append_right_inj, List.cons_prefix_cons]
  rintro ⟨heq, _⟩
  exact hmore (List.append_right_eq_self.mp heq.symm)

/-- Where one path is the beginning of another as a text, its segments are the first ones
of the other if the text does not end within a segment. -/
theorem segmentsOf_prefix_append_iff {path : Text} (hrooted : path.head? = some '/')
    (rest : Text) : segmentsOf path <+: segmentsOf (path ++ rest) ↔ AtBoundary path rest := by
  have hmem : '/' ∈ path := List.mem_of_head? hrooted
  obtain ⟨left, segment, rfl, hslash⟩ :
      ∃ left segment, path = left ++ '/' :: segment ∧ '/' ∉ segment := by
    obtain ⟨back, front, hreverse, hslash⟩ :=
      List.eq_append_cons_of_mem (List.mem_reverse.mpr hmem)
    refine ⟨front.reverse, back.reverse, ?_, by simpa using hslash⟩
    simpa using congrArg List.reverse hreverse
  cases hsegment : segment with
  | nil =>
      apply iff_of_true
      · rw [List.append_assoc, List.cons_append, List.nil_append, segmentsOf_append_slash,
          segmentsOf_append_slash]
        apply (List.prefix_append_right_inj _).mpr
        exact List.nil_prefix
      · exact Or.inl (by simp)
  | cons first others =>
      rw [← hsegment]
      have hne : segment ≠ [] := by simp [hsegment]
      have hlast : (left ++ '/' :: segment).getLast? ≠ some '/' := by
        rw [List.getLast?_append_of_ne_nil _ (List.cons_ne_nil _ _),
          List.getLast?_cons_of_ne_nil hne]
        exact fun hlast => hslash (List.mem_of_getLast? hlast)
      rw [AtBoundary, or_iff_right hlast]
      by_cases hrest : rest = []
      · apply iff_of_true
        · rw [hrest, List.append_nil]
        · exact Or.inl hrest
      · rw [or_iff_right hrest]
        by_cases hhead : rest.head? = some '/'
        · apply iff_of_true _ hhead
          obtain ⟨after, rfl⟩ := List.head?_eq_some_iff.mp hhead
          rw [segmentsOf_append_slash (left ++ '/' :: segment) after]
          exact List.prefix_append _ _
        · apply iff_of_false _ hhead
          rw [List.append_assoc, List.cons_append]
          exact not_prefix_of_cut hslash hne hrest hhead

/-! ## Indexes that apply -/

namespace Index

variable {index other : Index} {url : Url} {urls : List Index}

/-- The scheme, the host and the effective port agree. -/
def SameServer (index : Index) (url : Url) : Prop :=
  index.rootUrl.scheme = url.scheme ∧ index.rootUrl.host = url.host ∧
    index.rootUrl.portOrKnownDefault = url.portOrKnownDefault

/-- The index is for the URL: it is on the server, and its segments are the first ones. -/
def Applies (index : Index) (url : Url) : Prop :=
  index.SameServer url ∧ index.rootUrl.segments <+: url.segments

theorem isPrefixFor_iff : index.isPrefixFor url = true ↔
    index.SameServer url ∧ index.rootUrl.path <+: url.path := by
  rw [isPrefixFor, SameServer]
  split_ifs with hserver
  · apply iff_of_false not_false
    rintro ⟨⟨hscheme, hhost, hport⟩, _⟩
    simp [hscheme, hhost, hport] at hserver
  · simp only [not_or, not_not] at hserver
    rw [and_iff_right hserver, List.isPrefixOf_iff_prefix]

/-- A path as a text decides as its segments do: the text ends with a segment, and what has
the segments has the text as well. -/
def TextAgrees (index : Index) (url : Url) : Prop :=
  (∀ rest, url.path = index.rootUrl.path ++ rest → AtBoundary index.rootUrl.path rest) ∧
    (index.rootUrl.segments <+: url.segments → index.rootUrl.path <+: url.path)

theorem prefix_iff_of_sameServer (hserver : index.SameServer url) :
    (index.isPrefixFor url = true ↔ index.Applies url) ↔ index.TextAgrees url := by
  rw [isPrefixFor_iff, Applies, and_iff_right hserver, and_iff_right hserver, TextAgrees]
  apply Iff.trans iff_iff_implies_and_implies
  apply and_congr_left
  intro _
  rw [segments_eq, segments_eq]
  constructor
  · intro hsegments rest hpath
    rw [← segmentsOf_prefix_append_iff index.rootUrl.rooted, ← hpath]
    exact hsegments (hpath ▸ List.prefix_append _ _)
  · rintro hboundary ⟨rest, hpath⟩
    rw [← hpath, segmentsOf_prefix_append_iff index.rootUrl.rooted]
    exact hboundary rest hpath.symm

/-- Of the indexes, the one that applies and has the longest root path, if any applies. -/
def IsLongest (urls : List Index) (url : Url) : Option Index → Prop
  | some index => (index ∈ urls ∧ index.Applies url) ∧ ∀ other ∈ urls, other.Applies url →
      other.rootUrl.segments.length ≤ index.rootUrl.segments.length
  | none => ∀ index ∈ urls, ¬ index.Applies url

end Index

namespace Indexes

open Index

variable {urls : List Index} {url : Url}

/-- An index matches if it applies, and in any order the lookups return the one with the longest
root path. -/
def FollowsPath (urls : List Index) (url : Url) : Prop :=
  (∀ index ∈ urls, index.isPrefixFor url = true ↔ index.Applies url) ∧
    ∃ result, IsLongest urls url result ∧ ∀ indexes : Indexes, indexes.IsFrom urls →
      indexes.indexFor url = result ∧
        indexes.authPolicyFor url = (result.map Index.authPolicy).getD .auto

theorem find?_eq_of_unique {α : Type} {test : α → Bool} {left right : List α}
    (hmem : ∀ element, element ∈ left ↔ element ∈ right)
    (hunique : ∀ element ∈ right, ∀ other ∈ right, test element → test other → element = other) :
    left.find? test = right.find? test := by
  cases hleft : left.find? test with
  | none =>
      have hnone := List.find?_eq_none.mp hleft
      exact (List.find?_eq_none.mpr fun element helement =>
        hnone element ((hmem element).mpr helement)).symm
  | some element =>
      have helement := (hmem element).mp (List.mem_of_find?_eq_some hleft)
      have htest := List.find?_some hleft
      cases hright : right.find? test with
      | none => exact absurd htest (List.find?_eq_none.mp hright element helement)
      | some other =>
          exact congrArg some (hunique element helement other
            (List.mem_of_find?_eq_some hright) htest (List.find?_some hright))

open Classical in
/-- Any of the indexes may come first. -/
theorem exists_isFrom_first {index : Index} (hmem : index ∈ urls) :
    ∃ indexes : Indexes, indexes.IsFrom urls ∧ ∃ rest, indexes.order = index :: rest := by
  have hnodup := urls.nodup_dedup
  have hrest : index ∉ urls.dedup.erase index := hnodup.not_mem_erase
  refine ⟨⟨index :: urls.dedup.erase index, List.nodup_cons.mpr ⟨hrest, hnodup.erase index⟩⟩,
    ?_, _, rfl⟩
  intro other
  rw [List.mem_cons, hnodup.mem_erase_iff, List.mem_dedup]
  by_cases heq : other = index
  · rw [heq]
    exact iff_of_true (Or.inl rfl) hmem
  · rw [or_iff_right heq, and_iff_right heq]

theorem indexFor_of_first {indexes : Indexes} {index : Index} {rest : List Index}
    (horder : indexes.order = index :: rest) (hmatch : index.isPrefixFor url = true) :
    indexes.indexFor url = some index := by
  rw [indexFor, findPrefixIndex, horder]
  exact List.find?_cons_of_pos hmatch

/-- The path is followed if texts decide as segments do, and one index at most matches. -/
theorem followsPath_iff (urls : List Index) (url : Url) : FollowsPath urls url ↔
    (∀ index ∈ urls, index.SameServer url → index.TextAgrees url) ∧
      ∀ index ∈ urls, ∀ other ∈ urls, index.isPrefixFor url → other.isPrefixFor url →
        index = other := by
  constructor
  · rintro ⟨happlies, result, _, hresult⟩
    constructor
    · intro index hindex hserver
      exact (prefix_iff_of_sameServer hserver).mp (happlies index hindex)
    · intro index hindex other hother hmatch hmatch'
      obtain ⟨indexes, hfrom, rest, horder⟩ := exists_isFrom_first hindex
      obtain ⟨indexes', hfrom', rest', horder'⟩ := exists_isFrom_first hother
      have hfirst := (hresult indexes hfrom).1
      have hfirst' := (hresult indexes' hfrom').1
      rw [indexFor_of_first horder hmatch] at hfirst
      rw [indexFor_of_first horder' hmatch'] at hfirst'
      exact Option.some.inj (hfirst.trans hfirst'.symm)
  · rintro ⟨hagrees, hunique⟩
    have happlies : ∀ index ∈ urls, index.isPrefixFor url = true ↔ index.Applies url := by
      intro index hindex
      by_cases hserver : index.SameServer url
      · exact (prefix_iff_of_sameServer hserver).mpr (hagrees index hindex hserver)
      · rw [isPrefixFor_iff]
        exact iff_of_false (fun h => hserver h.1) (fun h => hserver h.1)
    refine ⟨happlies, urls.find? fun index => index.isPrefixFor url, ?_, ?_⟩
    · cases hfind : urls.find? fun index => index.isPrefixFor url with
      | none =>
          intro index hindex hindexApplies
          exact List.find?_eq_none.mp hfind index hindex ((happlies index hindex).mpr hindexApplies)
      | some index =>
          have hindex := List.mem_of_find?_eq_some hfind
          have hmatch := List.find?_some hfind
          apply And.intro ⟨hindex, (happlies index hindex).mp hmatch⟩
          intro other hother hotherApplies
          rw [hunique index hindex other hother hmatch ((happlies other hother).mpr hotherApplies)]
    · intro indexes hfrom
      have hfind := find?_eq_of_unique hfrom hunique
      rw [indexFor, authPolicyFor, findPrefixIndex, hfind]
      exact ⟨rfl, rfl⟩

/-- The endpoint of an index on one host. -/
def hostIndex (path : Text) (hpath : path.head? = some '/') : Index where
  url := hostUrl path hpath
  rootUrl := hostUrl path hpath
  authPolicy := .always

/-- A sibling path that begins with the same text matches. -/
theorem not_followsPath : ¬ FollowsPath [hostIndex "/simple".toList rfl]
    (hostUrl "/simple2".toList rfl) := by
  rintro ⟨happlies, _⟩
  have hmatch : (hostIndex "/simple".toList rfl).isPrefixFor (hostUrl "/simple2".toList rfl) =
      true := by decide
  have hsegments := ((happlies _ List.mem_cons_self).mp hmatch).2
  exact absurd hsegments (by decide)

end Indexes

end Uv.Auth
