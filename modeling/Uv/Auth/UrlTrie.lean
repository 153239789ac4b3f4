import Mathlib

/-!
# A trie of URLs

The states of the trie are in a vector; a state has its children with their labels in order,
and may have a value.  An index outside of the vector would have the default state; there are
no such indices.
-/

set_option linter.unusedSectionVars false

namespace Uv.Auth

variable {Label T : Type} [LinearOrder Label]

structure TrieState (Label T : Type) where
  children : List (Label × ℕ)
  value : Option T

structure UrlTrie (Label T : Type) where
  states : List (TrieState Label T)

namespace TrieState

def default : TrieState Label T := ⟨[], none⟩

/-- The place of the label by binary search: where it is, or where it belongs. -/
def index (state : TrieState Label T) (component : Label) : Except ℕ ℕ :=
  let i := (state.children.takeWhile fun child => child.1 < component).length
  if (state.children[i]?.any fun child => child.1 = component) then .ok i else .error i

def get (state : TrieState Label T) (component : Label) : Option ℕ :=
  match state.index component with
  | .ok i => state.children[i]?.map Prod.snd
  | .error _ => none

end TrieState

namespace UrlTrie

def state (trie : UrlTrie Label T) (i : ℕ) : TrieState Label T :=
  trie.states.getD i .default

def new : UrlTrie Label T := ⟨[TrieState.default]⟩

/-- The loop of `get`, from a state on. -/
def getFrom (trie : UrlTrie Label T) (state : ℕ) : List Label → Option T
  | [] => (trie.state state).value
  | component :: rest =>
      match (trie.state state).get component with
      | none => none
      | some next =>
          match (trie.state next).value with
          | some value => some value
          | none => trie.getFrom next rest

def get (trie : UrlTrie Label T) (components : List Label) : Option T :=
  trie.getFrom 0 components

/-- A new state below another one, at the given place among its children. -/
def addChild (trie : UrlTrie Label T) (state i : ℕ) (component : Label) : UrlTrie Label T :=
  let newState := trie.states.length
  ⟨(trie.states ++ [TrieState.default]).modify state fun old =>
    { old with children := old.children.insertIdx i (component, newState) }⟩

/-- The loop of `insert`: the trie with the missing states, and the last state. -/
def descend (trie : UrlTrie Label T) (state : ℕ) : List Label → UrlTrie Label T × ℕ
  | [] => (trie, state)
  | component :: rest =>
      match (trie.state state).index component with
      | .ok i => trie.descend (((trie.state state).children[i]?.map Prod.snd).getD 0) rest
      | .error i => (trie.addChild state i component).descend trie.states.length rest

def setValue (trie : UrlTrie Label T) (state : ℕ) (value : T) : UrlTrie Label T :=
  ⟨trie.states.modify state fun old => { old with value := some value }⟩

def insert (trie : UrlTrie Label T) (components : List Label) (value : T) : UrlTrie Label T :=
  (trie.descend 0 components).1.setValue (trie.descend 0 components).2 value

/-! ## States -/

variable {trie trie' : UrlTrie Label T}

/-- The labels of the children are in strict order. -/
def Ordered (children : List (Label × ℕ)) : Prop :=
  children.Pairwise fun left right => left.1 < right.1

/-- There is an edge with the label. -/
def Edge (trie : UrlTrie Label T) (state : ℕ) (component : Label) (next : ℕ) : Prop :=
  (component, next) ∈ (trie.state state).children

/-- The children are in order, and the states are a tree with the first one as its root. -/
structure Tree (trie : UrlTrie Label T) : Prop where
  root : 0 < trie.states.length
  ordered : ∀ state, Ordered (trie.state state).children
  bounds : ∀ {state component next}, trie.Edge state component next →
    0 < next ∧ next < trie.states.length
  unique : ∀ {state component state' component' next}, trie.Edge state component next →
    trie.Edge state' component' next → state = state' ∧ component = component'

theorem state_of_length_le {i : ℕ} (hle : trie.states.length ≤ i) :
    trie.state i = .default :=
  List.getD_eq_default _ _ hle

theorem Edge.lt {state next : ℕ} {component : Label} (hedge : trie.Edge state component next) :
    state < trie.states.length := by
  by_contra hle
  rw [Edge, state_of_length_le (Nat.not_lt.mp hle)] at hedge
  cases hedge

theorem tree_new : Tree (new : UrlTrie Label T) := by
  have hstate : ∀ i, (new : UrlTrie Label T).state i = .default := by
    intro i
    cases i <;> rfl
  have hedge : ∀ {state component next}, ¬ (new : UrlTrie Label T).Edge state component next := by
    intro state component next hedge
    rw [Edge, hstate] at hedge
    cases hedge
  constructor
  case root => exact Nat.zero_lt_one
  case ordered =>
    intro state
    rw [hstate]
    exact List.Pairwise.nil
  case bounds => exact fun hbound => absurd hbound hedge
  case unique => exact fun hfirst => absurd hfirst hedge

/-! ## Children -/

/-- The place of a label: everything before it is less, and everything after it is greater. -/
theorem index_spec {state : TrieState Label T} (hordered : Ordered state.children)
    (component : Label) :
    (∃ i next, state.index component = .ok i ∧ state.children[i]? = some (component, next) ∧
        ∀ next', (component, next') ∈ state.children ↔ next' = next) ∨
      ∃ before after, state.children = before ++ after ∧
        state.index component = .error before.length ∧
        (∀ child ∈ before, child.1 < component) ∧ ∀ child ∈ after, component < child.1 := by
  let before := state.children.takeWhile fun child => child.1 < component
  let after := state.children.dropWhile fun child => child.1 < component
  have hsplit : state.children = before ++ after := (List.takeWhile_append_dropWhile ..).symm
  have hbefore : ∀ child ∈ before, child.1 < component := by
    intro child hchild
    simpa using List.mem_takeWhile_imp hchild
  have hget : state.children[before.length]? = after.head? := by
    rw [hsplit, List.getElem?_append_right le_rfl, Nat.sub_self, List.head?_eq_getElem?]
  have hindex : state.index component =
      if after.head?.any fun child => child.1 = component then .ok before.length
      else .error before.length := by
    rw [TrieState.index, ← hget]
  cases hafter : after with
  | nil =>
      right
      refine ⟨before, after, hsplit, ?_, hbefore, by simp [hafter]⟩
      rw [hindex, hafter]
      rfl
  | cons first rest =>
      have hrest : ∀ child ∈ rest, first.1 < child.1 := by
        rw [hsplit, hafter] at hordered
        exact (List.pairwise_cons.mp (List.pairwise_append.mp hordered).2.1).1
      have hfirst : component ≤ first.1 := by
        have hstop := List.head?_dropWhile_not (fun child => decide (child.1 < component))
          state.children
        have hdrop : (state.children.dropWhile fun child => child.1 < component) =
          first :: rest := hafter
        rw [hdrop] at hstop
        simpa using hstop
      by_cases heq : first.1 = component
      · left
        refine ⟨before.length, first.2, ?_, ?_, ?_⟩
        · rw [hindex, hafter]
          simp [heq]
        · rw [hget, hafter, ← heq]
          rfl
        · intro next'
          rw [hsplit, hafter, List.mem_append, List.mem_cons]
          constructor
          · rintro (hmem | hmem | hmem)
            · exact absurd (hbefore _ hmem) (lt_irrefl _)
            · rw [← hmem]
            · exact absurd (heq ▸ hrest _ hmem) (lt_irrefl _)
          · rintro rfl
            exact Or.inr (Or.inl (by rw [← heq]))
      · right
        refine ⟨before, after, hsplit, ?_, hbefore, ?_⟩
        · rw [hindex, hafter]
          simp [heq]
        · have hlt : component < first.1 := lt_of_le_of_ne hfirst (Ne.symm heq)
          rw [hafter]
          intro child hchild
          rcases List.mem_cons.mp hchild with rfl | hchild
          · exact hlt
          · exact hlt.trans (hrest child hchild)

/-- The child of a label is the end of its edge. -/
theorem get_eq_some_iff {i next : ℕ} {component : Label}
    (hordered : Ordered (trie.state i).children) :
    (trie.state i).get component = some next ↔ trie.Edge i component next := by
  rw [TrieState.get, Edge]
  rcases index_spec hordered component with
    ⟨j, next', hindex, hget, hmem⟩ | ⟨before, after, hsplit, hindex, hbefore, hafter⟩
  · rw [hindex, hmem]
    simp [hget, eq_comm]
  · rw [hindex, hsplit]
    simp only [reduceCtorEq, false_iff, List.mem_append, not_or]
    exact ⟨fun hmem => lt_irrefl _ (hbefore _ hmem), fun hmem => lt_irrefl _ (hafter _ hmem)⟩

/-! ## Paths -/

/-- The states that a list of labels leads from and to. -/
inductive Path (trie : UrlTrie Label T) : ℕ → List Label → ℕ → Prop
  | nil (state : ℕ) : Path trie state [] state
  | cons {state next last : ℕ} {component : Label} {rest : List Label}
      (hedge : trie.Edge state component next) (hrest : Path trie next rest last) :
      Path trie state (component :: rest) last

theorem Path.append {first middle last : ℕ} {left right : List Label}
    (hleft : trie.Path first left middle) (hright : trie.Path middle right last) :
    trie.Path first (left ++ right) last := by
  induction hleft with
  | nil => exact hright
  | cons hedge _ ih => exact .cons hedge (ih hright)

theorem path_concat_iff {first last : ℕ} {components : List Label} {component : Label} :
    trie.Path first (components ++ [component]) last ↔
      ∃ middle, trie.Path first components middle ∧ trie.Edge middle component last := by
  constructor
  · intro hpath
    induction components generalizing first with
    | nil =>
        cases hpath with
        | cons hedge hrest =>
            cases hrest
            exact ⟨first, .nil first, hedge⟩
    | cons other rest ih =>
        cases hpath with
        | cons hedge hrest =>
            obtain ⟨middle, hmiddle, hlast⟩ := ih hrest
            exact ⟨middle, .cons hedge hmiddle, hlast⟩
  · rintro ⟨middle, hpath, hedge⟩
    exact hpath.append (.cons hedge (.nil last))

/-- The labels to a state from the root are unique. -/
theorem Path.unique (htree : trie.Tree) {left right : List Label} {last : ℕ}
    (hleft : trie.Path 0 left last) (hright : trie.Path 0 right last) : left = right := by
  induction left using List.reverseRecOn generalizing right last with
  | nil =>
      cases hleft
      cases right using List.reverseRecOn with
      | nil => rfl
      | append_singleton right component =>
          obtain ⟨middle, _, hedge⟩ := path_concat_iff.mp hright
          exact absurd (htree.bounds hedge).1 (Nat.lt_irrefl 0)
  | append_singleton left component ih =>
      obtain ⟨middle, hmiddle, hedge⟩ := path_concat_iff.mp hleft
      cases right using List.reverseRecOn with
      | nil =>
          cases hright
          exact absurd (htree.bounds hedge).1 (Nat.lt_irrefl 0)
      | append_singleton right other =>
          obtain ⟨middle', hmiddle', hedge'⟩ := path_concat_iff.mp hright
          obtain ⟨rfl, rfl⟩ := htree.unique hedge hedge'
          rw [ih hmiddle hmiddle']

/-- A list of labels leads to one state. -/
theorem Path.deterministic (htree : trie.Tree) {first last last' : ℕ} {components : List Label}
    (hpath : trie.Path first components last) (hpath' : trie.Path first components last') :
    last = last' := by
  induction hpath with
  | nil =>
      cases hpath'
      rfl
  | cons hedge _ ih =>
      cases hpath' with
      | cons hedge' hrest' =>
          have hget := (get_eq_some_iff (htree.ordered _)).mpr hedge
          have hget' := (get_eq_some_iff (htree.ordered _)).mpr hedge'
          rw [hget, Option.some.injEq] at hget'
          exact ih (hget' ▸ hrest')

/-- The value at the end of a path from the root. -/
def Stores (trie : UrlTrie Label T) (components : List Label) (value : T) : Prop :=
  ∃ last, trie.Path 0 components last ∧ (trie.state last).value = some value

/-! ## Adding states -/

/-- States were added: the old edges and values are there, and new edges lead to new states. -/
structure Grows (trie trie' : UrlTrie Label T) : Prop where
  length : trie.states.length ≤ trie'.states.length
  edge : ∀ {state component next}, trie.Edge state component next →
    trie'.Edge state component next
  fresh : ∀ {state component next}, trie'.Edge state component next →
    trie.Edge state component next ∨ trie.states.length ≤ next
  value : ∀ i, (trie'.state i).value = (trie.state i).value

theorem Grows.refl (trie : UrlTrie Label T) : Grows trie trie :=
  ⟨le_rfl, id, Or.inl, fun _ => rfl⟩

theorem Grows.trans {trie'' : UrlTrie Label T} (hfirst : Grows trie trie')
    (hlast : Grows trie' trie'') : Grows trie trie'' where
  length := hfirst.length.trans hlast.length
  edge hedge := hlast.edge (hfirst.edge hedge)
  fresh hedge := by
    rcases hlast.fresh hedge with hedge | hle
    · exact hfirst.fresh hedge
    · exact Or.inr (hfirst.length.trans hle)
  value i := (hlast.value i).trans (hfirst.value i)

theorem Grows.path (hgrows : Grows trie trie') {first last : ℕ} {components : List Label}
    (hpath : trie.Path first components last) : trie'.Path first components last := by
  induction hpath with
  | nil => exact .nil _
  | cons hedge _ ih => exact .cons (hgrows.edge hedge) ih

section AddChild

variable {parent : ℕ} {component : Label} {before after : List (Label × ℕ)}

omit [LinearOrder Label] in
theorem insertIdx_append (before after : List (Label × ℕ)) (child : Label × ℕ) :
    (before ++ after).insertIdx before.length child = before ++ child :: after := by
  induction before with
  | nil => rfl
  | cons first before ih => rw [List.cons_append, List.length_cons, List.insertIdx_succ_cons, ih,
      List.cons_append]

theorem state_addChild (hparent : parent < trie.states.length)
    (hsplit : (trie.state parent).children = before ++ after) (i : ℕ) :
    (trie.addChild parent before.length component).state i =
      if parent = i then
        ⟨before ++ (component, trie.states.length) :: after, (trie.state parent).value⟩
      else trie.state i := by
  have happend : (trie.states ++ [TrieState.default])[i]?.getD .default = trie.state i := by
    rw [state, List.getD_eq_getElem?_getD]
    by_cases hlt : i < trie.states.length
    · rw [List.getElem?_append_left hlt]
    · have hle := Nat.not_lt.mp hlt
      rw [List.getElem?_append_right hle, List.getElem?_eq_none hle]
      cases i - trie.states.length <;> rfl
  rw [state, addChild, List.getD_eq_getElem?_getD, List.getElem?_modify]
  by_cases hi : parent = i
  · subst hi
    have hget : (trie.states ++ [TrieState.default])[parent]? = some (trie.state parent) := by
      rw [List.getElem?_append_left hparent, state, List.getD_eq_getElem?_getD,
        List.getElem?_eq_getElem hparent]
      rfl
    rw [hget, if_pos rfl]
    simp only [Option.map_eq_map, Option.map_some, Option.getD_some, if_true]
    rw [hsplit, insertIdx_append]
  · rw [if_neg hi]
    simpa [hi] using happend

theorem edge_addChild (hparent : parent < trie.states.length)
    (hsplit : (trie.state parent).children = before ++ after) {i next : ℕ} {label : Label} :
    (trie.addChild parent before.length component).Edge i label next ↔
      trie.Edge i label next ∨ i = parent ∧ label = component ∧ next = trie.states.length := by
  rw [Edge, state_addChild hparent hsplit]
  by_cases hi : parent = i
  · subst hi
    rw [if_pos rfl, Edge, hsplit]
    simp only [List.mem_append, List.mem_cons, Prod.mk.injEq, true_and]
    tauto
  · rw [if_neg hi]
    simp [Edge, Ne.symm hi]

theorem length_addChild : (trie.addChild parent before.length component).states.length =
    trie.states.length + 1 := by
  simp [addChild]

theorem grows_addChild (hparent : parent < trie.states.length)
    (hsplit : (trie.state parent).children = before ++ after) :
    Grows trie (trie.addChild parent before.length component) where
  length := by
    rw [length_addChild]
    exact Nat.le_succ _
  edge hedge := (edge_addChild hparent hsplit).mpr (Or.inl hedge)
  fresh hedge := by
    rcases (edge_addChild hparent hsplit).mp hedge with hedge | ⟨_, _, rfl⟩
    · exact Or.inl hedge
    · exact Or.inr le_rfl
  value i := by
    rw [state_addChild hparent hsplit]
    by_cases hi : parent = i
    · rw [if_pos hi, hi]
    · rw [if_neg hi]

theorem tree_addChild (htree : trie.Tree) (hparent : parent < trie.states.length)
    (hsplit : (trie.state parent).children = before ++ after)
    (hbefore : ∀ child ∈ before, child.1 < component)
    (hafter : ∀ child ∈ after, component < child.1) :
    Tree (trie.addChild parent before.length component) := by
  constructor
  case root =>
    rw [length_addChild]
    exact Nat.succ_pos _
  case ordered =>
    intro i
    rw [state_addChild hparent hsplit]
    by_cases hi : parent = i
    · rw [if_pos hi]
      have hold := htree.ordered parent
      rw [hsplit] at hold
      obtain ⟨hleft, hright, hcross⟩ := List.pairwise_append.mp hold
      apply List.pairwise_append.mpr
      refine ⟨hleft, List.pairwise_cons.mpr ⟨hafter, hright⟩, ?_⟩
      intro child hchild other hother
      rcases List.mem_cons.mp hother with rfl | hother
      · exact hbefore child hchild
      · exact hcross child hchild other hother
    · rw [if_neg hi]
      exact htree.ordered i
  case bounds =>
    intro i label next hedge
    rw [length_addChild]
    rcases (edge_addChild hparent hsplit).mp hedge with hedge | ⟨_, _, rfl⟩
    · exact (htree.bounds hedge).imp id Nat.lt_succ_of_lt
    · exact ⟨htree.root, Nat.lt_succ_self _⟩
  case unique =>
    intro i label i' label' next hedge hedge'
    rcases (edge_addChild hparent hsplit).mp hedge with hold | ⟨hi, hlabel, hnext⟩ <;>
      rcases (edge_addChild hparent hsplit).mp hedge' with hold' | ⟨hi', hlabel', hnext'⟩
    · exact htree.unique hold hold'
    · exact absurd (hnext' ▸ (htree.bounds hold).2) (Nat.lt_irrefl _)
    · exact absurd (hnext ▸ (htree.bounds hold').2) (Nat.lt_irrefl _)
    · exact ⟨hi.trans hi'.symm, hlabel.trans hlabel'.symm⟩

end AddChild

theorem descend_spec (htree : trie.Tree) {first : ℕ} (hfirst : first < trie.states.length)
    (components : List Label) :
    Tree (trie.descend first components).1 ∧ Grows trie (trie.descend first components).1 ∧
      (trie.descend first components).1.Path first components
        (trie.descend first components).2 := by
  induction components generalizing trie first with
  | nil => exact ⟨htree, .refl trie, .nil first⟩
  | cons component rest ih =>
      rw [descend]
      rcases index_spec (htree.ordered first) component with
        ⟨i, next, hindex, hget, hmem⟩ | ⟨before, after, hsplit, hindex, hbefore, hafter⟩
      · have hedge : trie.Edge first component next := (hmem next).mpr rfl
        simp only [hindex, hget, Option.map_some, Option.getD_some]
        obtain ⟨htree', hgrows, hpath⟩ := ih htree (htree.bounds hedge).2
        exact ⟨htree', hgrows, .cons (hgrows.edge hedge) hpath⟩
      · simp only [hindex]
        have hnew : trie.states.length <
            (trie.addChild first before.length component).states.length := by
          rw [length_addChild]
          exact Nat.lt_succ_self _
        obtain ⟨htree', hgrows, hpath⟩ :=
          ih (tree_addChild htree hfirst hsplit hbefore hafter) hnew
        have hedge : (trie.addChild first before.length component).Edge first component
            trie.states.length := (edge_addChild hfirst hsplit).mpr (Or.inr ⟨rfl, rfl, rfl⟩)
        exact ⟨htree', (grows_addChild hfirst hsplit).trans hgrows,
          .cons (hgrows.edge hedge) hpath⟩

/-! ## What is stored -/

theorem state_setValue {i : ℕ} (hi : i < trie.states.length) (value : T) (j : ℕ) :
    (trie.setValue i value).state j =
      if i = j then ⟨(trie.state i).children, some value⟩ else trie.state j := by
  rw [state, setValue, List.getD_eq_getElem?_getD, List.getElem?_modify]
  by_cases hj : i = j
  · subst hj
    rw [if_pos rfl, state, List.getD_eq_getElem?_getD, List.getElem?_eq_getElem hi]
    simp
  · simp [hj, state]

theorem edge_setValue {i j next : ℕ} {value : T} {component : Label}
    (hi : i < trie.states.length) :
    (trie.setValue i value).Edge j component next ↔ trie.Edge j component next := by
  rw [Edge, Edge, state_setValue hi]
  by_cases hj : i = j
  · rw [if_pos hj, hj]
  · rw [if_neg hj]

theorem path_setValue {i : ℕ} {value : T} (hi : i < trie.states.length) {first last : ℕ}
    {components : List Label} :
    (trie.setValue i value).Path first components last ↔ trie.Path first components last := by
  constructor
  · intro hpath
    induction hpath with
    | nil => exact .nil _
    | cons hedge _ ih => exact .cons ((edge_setValue hi).mp hedge) ih
  · intro hpath
    induction hpath with
    | nil => exact .nil _
    | cons hedge _ ih => exact .cons ((edge_setValue hi).mpr hedge) ih

theorem tree_setValue {i : ℕ} {value : T} (htree : trie.Tree) (hi : i < trie.states.length) :
    Tree (trie.setValue i value) := by
  have hlength : (trie.setValue i value).states.length = trie.states.length :=
    List.length_modify ..
  constructor
  case root =>
    rw [hlength]
    exact htree.root
  case ordered =>
    intro j
    rw [state_setValue hi]
    by_cases hj : i = j
    · rw [if_pos hj]
      exact htree.ordered i
    · rw [if_neg hj]
      exact htree.ordered j
  case bounds =>
    intro j component next hedge
    rw [hlength]
    exact htree.bounds ((edge_setValue hi).mp hedge)
  case unique =>
    exact fun hedge hedge' => htree.unique ((edge_setValue hi).mp hedge)
      ((edge_setValue hi).mp hedge')

theorem Path.lt (htree : trie.Tree) {last : ℕ} {components : List Label}
    (hpath : trie.Path 0 components last) : last < trie.states.length := by
  cases components using List.reverseRecOn with
  | nil =>
      cases hpath
      exact htree.root
  | append_singleton components component =>
      obtain ⟨middle, _, hedge⟩ := path_concat_iff.mp hpath
      exact (htree.bounds hedge).2

/-- A path of the larger trie to an old state is a path of the smaller one. -/
theorem Grows.path_old (hgrows : Grows trie trie') {last : ℕ}
    {components : List Label} (hpath : trie'.Path 0 components last)
    (hlast : last < trie.states.length) : trie.Path 0 components last := by
  induction components using List.reverseRecOn generalizing last with
  | nil =>
      cases hpath
      exact .nil 0
  | append_singleton components component ih =>
      obtain ⟨middle, hmiddle, hedge⟩ := path_concat_iff.mp hpath
      rcases hgrows.fresh hedge with hold | hle
      · exact path_concat_iff.mpr ⟨middle, ih hmiddle hold.lt, hold⟩
      · exact absurd hlast (Nat.not_lt.mpr hle)

/-- The value of a URL is the newest one; the other values stay. -/
theorem stores_insert (htree : trie.Tree) {components other : List Label} {value old : T} :
    (trie.insert components value).Stores other old ↔
      if other = components then old = value else trie.Stores other old := by
  obtain ⟨htree', hgrows, hpath⟩ := descend_spec htree htree.root components
  have hlt := hpath.lt htree'
  have hstores : (trie.insert components value).Stores other old ↔
      ∃ last, (trie.descend 0 components).1.Path 0 other last ∧
        (if (trie.descend 0 components).2 = last then some value
          else (trie.state last).value) = some old := by
    apply exists_congr
    intro last
    rw [insert, path_setValue hlt, state_setValue hlt]
    apply and_congr_right
    intro _
    split
    · rfl
    · rw [hgrows.value]
  rw [hstores]
  by_cases hother : other = components
  · rw [if_pos hother, hother]
    constructor
    · rintro ⟨last, hlast, hvalue⟩
      rw [if_pos (hpath.deterministic htree' hlast)] at hvalue
      exact (Option.some.inj hvalue).symm
    · rintro rfl
      exact ⟨_, hpath, if_pos rfl⟩
  · rw [if_neg hother]
    constructor
    · rintro ⟨last, hlast, hvalue⟩
      have hne : (trie.descend 0 components).2 ≠ last := by
        rintro rfl
        exact hother (hlast.unique htree' hpath)
      rw [if_neg hne] at hvalue
      have hold : last < trie.states.length := by
        by_contra hle
        rw [state_of_length_le (Nat.not_lt.mp hle)] at hvalue
        cases hvalue
      exact ⟨last, hgrows.path_old hlast hold, hvalue⟩
    · rintro ⟨last, hlast, hvalue⟩
      have hne : (trie.descend 0 components).2 ≠ last := by
        rintro rfl
        exact hother ((hgrows.path hlast).unique htree' hpath)
      exact ⟨last, hgrows.path hlast, by rw [if_neg hne, hvalue]⟩

theorem tree_insert (htree : trie.Tree) (components : List Label) (value : T) :
    Tree (trie.insert components value) := by
  obtain ⟨htree', _, hpath⟩ := descend_spec htree htree.root components
  exact tree_setValue htree' (hpath.lt htree')

theorem not_stores_new {components : List Label} {value : T} :
    ¬ (new : UrlTrie Label T).Stores components value := by
  rintro ⟨last, _, hvalue⟩
  cases last <;> cases hvalue

theorem Stores.unique (htree : trie.Tree) {components : List Label} {value value' : T}
    (hstores : trie.Stores components value) (hstores' : trie.Stores components value') :
    value = value' := by
  obtain ⟨last, hpath, hvalue⟩ := hstores
  obtain ⟨last', hpath', hvalue'⟩ := hstores'
  rw [hpath.deterministic htree hpath', hvalue'] at hvalue
  exact (Option.some.inj hvalue).symm

/-- The value of the shortest beginning that has one. -/
structure FirstStored (trie : UrlTrie Label T) (done components : List Label) (value : T)
    (found : List Label) : Prop where
  starts : found <+: components
  ne_nil : found ≠ []
  stores : trie.Stores (done ++ found) value
  shortest : ∀ shorter, shorter <+: found → shorter ≠ [] → shorter ≠ found → ∀ other,
    ¬ trie.Stores (done ++ shorter) other

theorem path_append_iff {first last : ℕ} {left right : List Label} :
    trie.Path first (left ++ right) last ↔
      ∃ middle, trie.Path first left middle ∧ trie.Path middle right last := by
  constructor
  · intro hpath
    induction left generalizing first with
    | nil => exact ⟨first, .nil first, hpath⟩
    | cons component left ih =>
        cases hpath with
        | cons hedge hrest =>
            obtain ⟨middle, hleft, hright⟩ := ih hrest
            exact ⟨middle, .cons hedge hleft, hright⟩
  · rintro ⟨middle, hleft, hright⟩
    exact hleft.append hright

/-- Below a state without a value the loop finds the first value. -/
theorem getFrom_eq_some_iff (htree : trie.Tree) {done components : List Label} {first : ℕ}
    {value : T} (hpath : trie.Path 0 done first) (hnone : (trie.state first).value = none) :
    trie.getFrom first components = some value ↔
      ∃ found, trie.FirstStored done components value found := by
  induction components generalizing done first with
  | nil =>
      rw [getFrom, hnone]
      apply iff_of_false
      · exact Option.some_ne_none _ ∘ Eq.symm
      · rintro ⟨found, hfound⟩
        exact hfound.ne_nil (List.prefix_nil.mp hfound.starts)
  | cons component rest ih =>
      have hstart : ∀ {found}, trie.FirstStored done (component :: rest) value found →
          ∃ more, found = component :: more ∧ more <+: rest := by
        intro found hfound
        cases found with
        | nil => exact absurd rfl hfound.ne_nil
        | cons other more =>
            obtain ⟨rfl, hmore⟩ := List.cons_prefix_cons.mp hfound.starts
            exact ⟨more, rfl, hmore⟩
      rw [getFrom]
      cases hget : (trie.state first).get component with
      | none =>
          apply iff_of_false
          · exact Option.some_ne_none _ ∘ Eq.symm
          · rintro ⟨found, hfound⟩
            obtain ⟨more, rfl, _⟩ := hstart hfound
            obtain ⟨last, hlast, _⟩ := hfound.stores
            obtain ⟨middle, hmiddle, hrest⟩ := path_append_iff.mp hlast
            rw [hmiddle.deterministic htree hpath] at hrest
            cases hrest with
            | cons hedge _ =>
                rw [(get_eq_some_iff (htree.ordered _)).mpr hedge] at hget
                cases hget
      | some next =>
          have hedge := (get_eq_some_iff (htree.ordered _)).mp hget
          have hnext : trie.Path 0 (done ++ [component]) next :=
            path_concat_iff.mpr ⟨first, hpath, hedge⟩
          dsimp only
          cases hvalue : (trie.state next).value with
          | some other =>
              have hother : trie.Stores (done ++ [component]) other := ⟨next, hnext, hvalue⟩
              constructor
              · intro heq
                cases heq
                refine ⟨[component], by simp, by simp, hother, ?_⟩
                intro shorter hshorter hne hne' _ _
                rcases List.prefix_cons_iff.mp hshorter with rfl | ⟨tail, rfl, htail⟩
                · exact hne rfl
                · exact hne' (by rw [List.prefix_nil.mp htail])
              · rintro ⟨found, hfound⟩
                obtain ⟨more, rfl, _⟩ := hstart hfound
                cases more with
                | nil => exact congrArg some (hother.unique htree hfound.stores)
                | cons second more =>
                    have hshort : [component] <+: component :: second :: more :=
                      List.cons_prefix_cons.mpr ⟨rfl, List.nil_prefix⟩
                    exact absurd hother (hfound.shortest _ hshort (by simp) (by simp) other)
          | none =>
              dsimp only
              rw [ih hnext hvalue]
              have hnot : ∀ other, ¬ trie.Stores (done ++ [component]) other := by
                rintro other ⟨last, hlast, hlastValue⟩
                rw [hlast.deterministic htree hnext, hvalue] at hlastValue
                cases hlastValue
              constructor
              · rintro ⟨found, hfound⟩
                refine ⟨component :: found, List.cons_prefix_cons.mpr ⟨rfl, hfound.starts⟩,
                  by simp, ?_, ?_⟩
                · simpa using hfound.stores
                · intro shorter hshorter hne hne' other hstores
                  rcases List.prefix_cons_iff.mp hshorter with rfl | ⟨tail, rfl, htail⟩
                  · exact hne rfl
                  · cases tail with
                    | nil => exact hnot other hstores
                    | cons second tail =>
                        apply hfound.shortest (second :: tail) htail (by simp)
                          (fun heq => hne' (by rw [heq])) other
                        simpa using hstores
              · rintro ⟨found, hfound⟩
                obtain ⟨more, rfl, hmore⟩ := hstart hfound
                cases more with
                | nil => exact absurd hfound.stores (hnot value)
                | cons second more =>
                    refine ⟨second :: more, hmore, by simp, ?_, ?_⟩
                    · simpa using hfound.stores
                    · intro shorter hshorter hne hne' other hstores
                      apply hfound.shortest (component :: shorter)
                        (List.cons_prefix_cons.mpr ⟨rfl, hshorter⟩) (by simp)
                        (fun heq => hne' (List.cons.inj heq).2) other
                      simpa using hstores

theorem get_eq_some_iff_firstStored (htree : trie.Tree) {components : List Label} {value : T}
    (hroot : ∀ other, ¬ trie.Stores [] other) : trie.get components = some value ↔
      ∃ found, trie.FirstStored [] components value found := by
  apply getFrom_eq_some_iff htree (.nil 0)
  cases hvalue : (trie.state 0).value with
  | none => rfl
  | some other => exact absurd ⟨0, .nil 0, hvalue⟩ (hroot other)

end UrlTrie

end Uv.Auth
