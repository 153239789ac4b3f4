import Uv.Core.Graph
import Uv.Core.Loop
import Uv.Resolver.Conflicts

/-!
# The activation worklist

`simplify_conflict_markers` first computes, for every node of the resolution
graph, the sets of extras and groups that are active on some path to the node.
A node is put back into the queue when it receives a set it does not hold, but
what it receives lacks the node's own item, which is only added on the next
visit.  So a set can be received again and again, and the loop ends only when
no cycle of nodes keeps sending such sets.
-/

namespace Uv.Resolver

open Uv.Core Uv.Core.DiGraph

/-- A set of active extras and groups. -/
abbrev ActiveSet := Finset ConflictItem

namespace Activation

variable {Edge : Type} {graph : DiGraph ResolutionGraphNode Edge}

/-! ## The loop -/

/-- `activated: FxHashMap<NodeIndex, Vec<FxHashSet<ConflictItem>>>`. -/
abbrev Activated (graph : DiGraph ResolutionGraphNode Edge) :=
  graph.NodeIndex → Option (List ActiveSet)

/-- The variables of the loop.  The first element of `queue` is the next one to
be popped. -/
structure State (graph : DiGraph ResolutionGraphNode Edge) where
  activated : Activated graph
  queue : List graph.NodeIndex
  seen : Finset graph.NodeIndex

/-- Insert one of the node's items into all of its sets. -/
def insertItem (index : graph.NodeIndex) (activated : Activated graph)
    (item : ConflictItem) : Activated graph :=
  Function.update activated index
    (some (((activated index).getD [∅]).map (insert item)))

/-- Give one set to a child, unless it has the set already. -/
def pushSet (child : graph.NodeIndex) (acc : Activated graph × Bool)
    (set : ActiveSet) : Activated graph × Bool :=
  let existing := (acc.1 child).getD []
  if set ∈ existing then
    (Function.update acc.1 child (some existing), acc.2)
  else (Function.update acc.1 child (some (existing ++ [set])), true)

/-- Give all sets to a child, and queue the child if that changes it. -/
def visitEdge (sets : List ActiveSet) (state : State graph)
    (child : graph.NodeIndex) : State graph :=
  let (activated, change) := sets.foldl (pushSet child) (state.activated, false)
  if child ∉ state.seen ∨ change = true then
    { activated, queue := child :: state.queue, seen := insert child state.seen }
  else { state with activated }

/-- One round of the loop. -/
def step (state : State graph) : Option (State graph) :=
  match state.queue with
  | [] => none
  | parent :: queue =>
      let activated := (node parent).conflictItems.foldl (insertItem parent)
        state.activated
      let sets := (activated parent).getD [∅]
      some (((outgoing parent).map Prod.fst).foldl (visitEdge sets)
        { state with activated, queue })

/-- The roots are queued in order, so the last one is popped first. -/
def start (graph : DiGraph ResolutionGraphNode Edge) : State graph where
  activated := fun _ => none
  queue := graph.roots.reverse
  seen := ∅

/-- The propagation loop. -/
def propagate (graph : DiGraph ResolutionGraphNode Edge) (fuel : ℕ) :
    Option (State graph) :=
  loop step fuel (start graph)

/-- The sets of a node as the loop reads them. -/
def State.sets (state : State graph) (index : graph.NodeIndex) : List ActiveSet :=
  (state.activated index).getD [∅]

/-- The sets a node has received. -/
def State.entry (state : State graph) (index : graph.NodeIndex) :
    List ActiveSet :=
  (state.activated index).getD []

/-- The own items of a node. -/
def own (index : graph.NodeIndex) : ActiveSet := (node index).conflictItems.toFinset

/-! ## What one round does -/

theorem foldl_insertItem (index : graph.NodeIndex) (activated : Activated graph)
    (items : List ConflictItem) :
    (items = [] → items.foldl (insertItem index) activated = activated) ∧
      (items ≠ [] → items.foldl (insertItem index) activated =
        Function.update activated index (some
          (((activated index).getD [∅]).map (· ∪ items.toFinset)))) := by
  induction items generalizing activated with
  | nil => simp
  | cons item items ih =>
      refine ⟨by simp, fun _ => ?_⟩
      rw [List.foldl_cons]
      by_cases hnil : items = []
      · rw [(ih _).1 hnil, hnil]
        simp only [insertItem, List.toFinset_cons, List.toFinset_nil]
        congr 3
        funext set
        rw [Finset.insert_eq, Finset.union_comm]
        rfl
      · rw [(ih _).2 hnil]
        simp only [insertItem, Function.update_self, Function.update_idem,
          Option.getD_some, List.map_map]
        congr 3
        funext set
        simp [Finset.insert_union, Finset.union_insert]

/-- What a child holds after it was given some sets. -/
structure Received (before after : Option (List ActiveSet))
    (sets : List ActiveSet) : Prop where
  mem : ∀ set, set ∈ after.getD [] ↔ set ∈ before.getD [] ∨ set ∈ sets
  isSome : sets ≠ [] → after.isSome = true
  keeps : before.isSome = true → after.isSome = true

theorem pushSet_of_mem {child : graph.NodeIndex} {acc : Activated graph × Bool}
    {set : ActiveSet} (hset : set ∈ (acc.1 child).getD []) :
    pushSet child acc set =
      (Function.update acc.1 child (some ((acc.1 child).getD [])), acc.2) :=
  if_pos hset

theorem pushSet_of_not_mem {child : graph.NodeIndex}
    {acc : Activated graph × Bool} {set : ActiveSet}
    (hset : set ∉ (acc.1 child).getD []) :
    pushSet child acc set =
      (Function.update acc.1 child (some ((acc.1 child).getD [] ++ [set])), true) :=
  if_neg hset

theorem pushSet_received (child : graph.NodeIndex) (acc : Activated graph × Bool)
    (set : ActiveSet) :
    Received (acc.1 child) ((pushSet child acc set).1 child) [set] ∧
      (∀ index ≠ child, (pushSet child acc set).1 index = acc.1 index) ∧
      ((pushSet child acc set).2 = true ↔
        acc.2 = true ∨ set ∉ (acc.1 child).getD []) := by
  by_cases hset : set ∈ (acc.1 child).getD []
  · rw [pushSet_of_mem hset]
    refine ⟨⟨fun other => ?_, by simp, by simp⟩, ?_, by simp [hset]⟩
    · simp only [Function.update_self, Option.getD_some, List.mem_singleton]
      exact ⟨.inl, fun hor => hor.elim id fun heq => heq ▸ hset⟩
    · intro index hne
      simp [hne]
  · rw [pushSet_of_not_mem hset]
    refine ⟨⟨by simp, by simp, by simp⟩, ?_, by simp [hset]⟩
    intro index hne
    simp [hne]

theorem Received.trans {before middle after : Option (List ActiveSet)}
    {first second : List ActiveSet} (hfirst : Received before middle first)
    (hsecond : Received middle after second) :
    Received before after (first ++ second) where
  mem set := by rw [hsecond.mem, hfirst.mem, List.mem_append, or_assoc]
  isSome hne := by
    by_cases hnil : first = []
    · exact hsecond.isSome (by simpa [hnil] using hne)
    · exact hsecond.keeps (hfirst.isSome hnil)
  keeps hsome := hsecond.keeps (hfirst.keeps hsome)

/-- Receiving the same sets again changes nothing. -/
theorem Received.again {before middle after : Option (List ActiveSet)}
    {sets : List ActiveSet} (hfirst : Received before middle sets)
    (hsecond : Received middle after sets) : Received before after sets where
  mem set := by rw [hsecond.mem, hfirst.mem, or_assoc, or_self]
  isSome hne := hsecond.isSome hne
  keeps hsome := hsecond.keeps (hfirst.keeps hsome)

theorem foldl_pushSet (child : graph.NodeIndex) (sets : List ActiveSet)
    (acc : Activated graph × Bool) :
    Received (acc.1 child) ((sets.foldl (pushSet child) acc).1 child) sets ∧
      (∀ index ≠ child, (sets.foldl (pushSet child) acc).1 index = acc.1 index) ∧
      ((sets.foldl (pushSet child) acc).2 = true ↔
        acc.2 = true ∨ ∃ set ∈ sets, set ∉ (acc.1 child).getD []) := by
  induction sets generalizing acc with
  | nil => exact ⟨⟨by simp, by simp, id⟩, by simp, by simp⟩
  | cons set sets ih =>
      rw [List.foldl_cons]
      obtain ⟨hfirst, hsame, hflag⟩ := pushSet_received child acc set
      obtain ⟨hreceived, hother, hchange⟩ := ih (pushSet child acc set)
      refine ⟨hfirst.trans hreceived, fun index hne => ?_, ?_⟩
      · rw [hother index hne, hsame index hne]
      · rw [hchange, hflag]
        simp only [hfirst.mem, List.mem_cons, List.not_mem_nil, or_false, not_or]
        constructor
        · rintro ((hacc | hset) | ⟨other, hother, hnot, -⟩)
          · exact .inl hacc
          · exact .inr ⟨set, .inl rfl, hset⟩
          · exact .inr ⟨other, .inr hother, hnot⟩
        · rintro (hacc | ⟨other, rfl | hother, hnot⟩)
          · exact .inl (.inl hacc)
          · exact .inl (.inr hnot)
          · by_cases heq : other = set
            · exact .inl (.inr (heq ▸ hnot))
            · exact .inr ⟨other, hother, hnot, heq⟩

/-- What visiting some children does. -/
structure Emitted (sets : List ActiveSet) (children : List graph.NodeIndex)
    (state next : State graph) : Prop where
  received : ∀ child ∈ children,
    Received (state.activated child) (next.activated child) sets
  untouched : ∀ index ∉ children, next.activated index = state.activated index
  seen : ∀ index, index ∈ next.seen ↔ index ∈ state.seen ∨ index ∈ children
  queue : ∃ pushed, next.queue = pushed ++ state.queue ∧
    ∀ index, index ∈ pushed ↔ index ∈ children ∧
      (index ∉ state.seen ∨ ∃ set ∈ sets, set ∉ state.entry index)

theorem visitEdge_emitted (sets : List ActiveSet) (state : State graph)
    (child : graph.NodeIndex) :
    Emitted sets [child] state (visitEdge sets state child) := by
  obtain ⟨hreceived, hother, hchange⟩ :=
    foldl_pushSet child sets (state.activated, false)
  have hactivated : (visitEdge sets state child).activated =
      (sets.foldl (pushSet child) (state.activated, false)).1 := by
    unfold visitEdge
    simp only
    split <;> rfl
  simp only [Bool.false_eq_true, false_or] at hchange
  refine ⟨?_, ?_, ?_, ?_⟩
  · rintro index hindex
    rw [List.mem_singleton] at hindex
    rw [hindex, hactivated]
    exact hreceived
  · intro index hindex
    rw [List.mem_singleton] at hindex
    rw [hactivated]
    exact hother index hindex
  · intro index
    unfold visitEdge
    simp only [List.mem_singleton]
    split
    · rw [Finset.mem_insert, or_comm]
    · rename_i hskip
      rw [not_or, not_not] at hskip
      exact ⟨.inl, fun hor => hor.elim id fun heq => heq ▸ hskip.1⟩
  · unfold visitEdge
    simp only [hchange]
    split
    · rename_i hpush
      refine ⟨[child], rfl, fun index => ?_⟩
      rw [List.mem_singleton]
      exact ⟨fun heq => ⟨heq, heq ▸ hpush⟩, And.left⟩
    · rename_i hskip
      refine ⟨[], rfl, fun index => ?_⟩
      simp only [List.not_mem_nil, List.mem_singleton, false_iff, not_and]
      rintro rfl
      exact hskip

theorem foldl_visitEdge_emitted (sets : List ActiveSet)
    (children : List graph.NodeIndex) (state : State graph) :
    Emitted sets children state (children.foldl (visitEdge sets) state) := by
  induction children generalizing state with
  | nil => exact ⟨by simp, by simp, by simp, [], rfl, by simp⟩
  | cons child children ih =>
      rw [List.foldl_cons]
      have hfirst := visitEdge_emitted sets state child
      have hrest := ih (visitEdge sets state child)
      have hchild := hfirst.received child (by simp)
      have hother : ∀ index ≠ child,
          (visitEdge sets state child).activated index = state.activated index :=
        fun index hne => hfirst.untouched index (by simpa using hne)
      refine ⟨fun index hindex => ?_, fun index hindex => ?_, fun index => ?_, ?_⟩
      · by_cases heq : index = child
        · subst heq
          by_cases hagain : index ∈ children
          · exact hchild.again (hrest.received index hagain)
          · rw [hrest.untouched index hagain]
            exact hchild
        · have hreceived := hrest.received index
            ((List.mem_cons.mp hindex).resolve_left heq)
          rwa [hother index heq] at hreceived
      · rw [List.mem_cons, not_or] at hindex
        rw [hrest.untouched index hindex.2, hother index hindex.1]
      · rw [hrest.seen, hfirst.seen, List.mem_singleton, List.mem_cons, or_assoc]
      · obtain ⟨pushed, hqueue, hpushed⟩ := hfirst.queue
        obtain ⟨pushed', hqueue', hpushed'⟩ := hrest.queue
        refine ⟨pushed' ++ pushed, by rw [hqueue', hqueue, List.append_assoc],
          fun index => ?_⟩
        rw [List.mem_append, hpushed, hpushed', List.mem_singleton, List.mem_cons]
        by_cases heq : index = child
        · -- A second edge to the same child finds nothing new.
          subst heq
          have hnothing : ¬ (index ∉ (visitEdge sets state index).seen ∨
              ∃ set ∈ sets, set ∉ (visitEdge sets state index).entry index) := by
            rintro (hseen | ⟨set, hset, hnot⟩)
            · exact hseen ((hfirst.seen index).mpr (.inr (by simp)))
            · exact hnot ((hchild.mem set).mpr (.inr hset))
          simp [hnothing]
        · have hentry : (visitEdge sets state child).entry index =
              state.entry index := by
            rw [State.entry, hother index heq, State.entry]
          have hseen : index ∈ (visitEdge sets state child).seen ↔
              index ∈ state.seen := by
            rw [hfirst.seen, List.mem_singleton, or_iff_left heq]
          simp [heq, hentry, hseen]

/-- What a node sends when it is visited. -/
def State.emitted (state : State graph) (parent : graph.NodeIndex) :
    List ActiveSet :=
  (state.sets parent).map (· ∪ own parent)

/-- The node's sets right before it sends them. -/
structure Normalized (state middle : State graph) (parent : graph.NodeIndex)
    (rest : List graph.NodeIndex) : Prop where
  sets_eq : middle.sets parent = state.emitted parent
  entry_mem : ∀ set ∈ middle.entry parent, set ∈ state.emitted parent
  entry_of_isSome : (state.activated parent).isSome = true →
    middle.entry parent = state.emitted parent
  nonempty : state.activated parent ≠ some [] → middle.activated parent ≠ some []
  untouched : ∀ index ≠ parent, middle.activated index = state.activated index
  seen_eq : middle.seen = state.seen
  queue_eq : middle.queue = rest

/-- One round normalizes a node and sends its sets to its children. -/
theorem step_eq_some {state next : State graph} (hstep : step state = some next) :
    ∃ parent rest middle, state.queue = parent :: rest ∧
      Normalized state middle parent rest ∧
      Emitted (state.emitted parent) ((outgoing parent).map Prod.fst) middle
        next := by
  unfold step at hstep
  split at hstep
  · cases hstep
  rename_i parent rest hqueue
  cases hstep
  let middle : State graph :=
    { state with
      activated := (node parent).conflictItems.foldl (insertItem parent)
        state.activated
      queue := rest }
  obtain ⟨hnil, hcons⟩ :=
    foldl_insertItem parent state.activated (node parent).conflictItems
  have hnormalized : Normalized state middle parent rest := by
    by_cases hitems : (node parent).conflictItems = []
    · have hown : own parent = ∅ := by simp [own, hitems]
      have hsame : middle.activated = state.activated := hnil hitems
      have hemitted : state.emitted parent = state.sets parent := by
        simp [State.emitted, hown]
      refine ⟨?_, ?_, ?_, by rw [hsame]; exact id, by simp [hsame], rfl, rfl⟩
      · rw [hemitted, State.sets, hsame, State.sets]
      · rw [hemitted, State.entry, hsame, State.sets]
        cases state.activated parent <;> simp
      · rw [hemitted, State.entry, hsame, State.sets]
        cases state.activated parent <;> simp
    · have hsome : middle.activated =
          Function.update state.activated parent (some (state.emitted parent)) :=
        hcons hitems
      refine ⟨?_, ?_, ?_, ?_, ?_, rfl, rfl⟩
      · simp [State.sets, hsome]
      · simp [State.entry, hsome]
      · simp [State.entry, hsome]
      · rw [hsome, Function.update_self]
        cases hsets : state.activated parent <;>
          simp [State.emitted, State.sets, hsets]
      · intro index hne
        simp [hsome, hne]
  refine ⟨parent, rest, middle, hqueue, hnormalized, ?_⟩
  rw [← hnormalized.sets_eq]
  exact foldl_visitEdge_emitted _ _ middle

/-! ## The invariant -/

/-- The items on some path from a root to the node. -/
inductive Active : graph.NodeIndex → ActiveSet → Prop where
  | root {index : graph.NodeIndex} (hroot : isRoot index = true) :
      Active index (own index)
  | step {source target : graph.NodeIndex} {set : ActiveSet}
      (hactive : Active source set) (hedge : Adjacent source target) :
      Active target (set ∪ own target)

theorem Active.own_subset {index : graph.NodeIndex} {set : ActiveSet}
    (hactive : Active index set) : own index ⊆ set := by
  cases hactive with
  | root => exact le_rfl
  | step => exact Finset.subset_union_right

theorem Active.eq_own_of_isRoot {index : graph.NodeIndex} {set : ActiveSet}
    (hactive : Active index set) (hroot : isRoot index = true) :
    set = own index := by
  cases hactive with
  | root => rfl
  | step _ hedge =>
      rw [hedge.not_isRoot] at hroot
      cases hroot

/-- A node that has sent everything it holds. -/
structure Settled (state : State graph) (index : graph.NodeIndex) : Prop where
  own_subset : ∀ set ∈ state.sets index, own index ⊆ set
  children_seen : ∀ child, Adjacent index child → child ∈ state.seen
  sent : ∀ child, Adjacent index child → ∀ set ∈ state.sets index,
    ∃ other ∈ state.entry child, other ∪ own child = set ∪ own child

structure Invariant (state : State graph) : Prop where
  nonempty : ∀ index, state.activated index ≠ some []
  seen_isSome : ∀ index ∈ state.seen, (state.activated index).isSome = true
  queued : ∀ index ∈ state.queue, isRoot index = true ∨ index ∈ state.seen
  active : ∀ index, ∀ set ∈ state.entry index, Active index (set ∪ own index)
  settled : ∀ index, isRoot index = true ∨ index ∈ state.seen →
    index ∉ state.queue → Settled state index

theorem invariant_start : Invariant (start graph) where
  nonempty index := by simp [start]
  seen_isSome index hseen := by simp [start] at hseen
  queued index hindex := by
    rw [start, List.mem_reverse, mem_roots] at hindex
    exact .inl hindex
  active index set hset := by simp [start, State.entry] at hset
  settled index hor hqueue := by
    rw [start, List.mem_reverse, mem_roots] at hqueue
    simp [hqueue, start] at hor

theorem State.sets_eq_entry {state : State graph} {index : graph.NodeIndex}
    (hsome : (state.activated index).isSome = true) :
    state.sets index = state.entry index := by
  obtain ⟨list, hlist⟩ := Option.isSome_iff_exists.mp hsome
  rw [State.sets, State.entry, hlist, Option.getD_some, Option.getD_some]

theorem State.isSome_of_mem_entry {state : State graph} {index : graph.NodeIndex}
    {set : ActiveSet} (hset : set ∈ state.entry index) :
    (state.activated index).isSome = true := by
  unfold State.entry at hset
  cases hactivated : state.activated index with
  | none =>
      rw [hactivated] at hset
      cases hset
  | some list => rfl

section Step

variable {state middle next : State graph} {parent : graph.NodeIndex}
  {rest : List graph.NodeIndex} (hinv : Invariant state)
  (hqueue : state.queue = parent :: rest)
  (hnormalized : Normalized state middle parent rest)
  (hemitted : Emitted (state.emitted parent) ((outgoing parent).map Prod.fst)
    middle next)

section Round

include hinv in
theorem emitted_ne_nil : state.emitted parent ≠ [] := by
  have hne := hinv.nonempty parent
  unfold State.emitted State.sets
  cases hactivated : state.activated parent with
  | none => simp
  | some list =>
      rw [hactivated] at hne
      simpa using hne

theorem own_subset_emitted {set : ActiveSet} (hset : set ∈ state.emitted parent) :
    own parent ⊆ set := by
  obtain ⟨other, -, rfl⟩ := List.mem_map.mp hset
  exact Finset.subset_union_right

include hinv hqueue in
theorem emitted_active {set : ActiveSet} (hset : set ∈ state.emitted parent) :
    Active parent set := by
  obtain ⟨other, hother, rfl⟩ := List.mem_map.mp hset
  cases hactivated : state.activated parent with
  | some list =>
      refine hinv.active parent other ?_
      rwa [← State.sets_eq_entry (by simp [hactivated])]
  | none =>
      -- Only a root is visited before it has received anything.
      have hroot : isRoot parent = true := by
        refine (hinv.queued parent (by simp [hqueue])).resolve_right fun hseen => ?_
        have hsome := hinv.seen_isSome parent hseen
        simp [hactivated] at hsome
      have hempty : other = ∅ := by
        simpa [State.sets, hactivated] using hother
      rw [hempty, Finset.empty_union]
      exact .root hroot

include hemitted in
theorem middle_entry_subset {index : graph.NodeIndex} {set : ActiveSet}
    (hset : set ∈ middle.entry index) : set ∈ next.entry index := by
  by_cases hchild : index ∈ (outgoing parent).map Prod.fst
  · exact ((hemitted.received index hchild).mem set).mpr (.inl hset)
  · rwa [State.entry, hemitted.untouched index hchild]

include hnormalized hemitted

/-- A set is kept, at most with the items of its node added. -/
theorem entry_kept {index : graph.NodeIndex} {set : ActiveSet}
    (hset : set ∈ state.entry index) :
    ∃ other ∈ next.entry index, other ∪ own index = set ∪ own index ∧
      (own index ⊆ set → other = set) := by
  by_cases heq : index = parent
  · subst heq
    have hsome := State.isSome_of_mem_entry hset
    refine ⟨set ∪ own index, middle_entry_subset hemitted ?_, ?_, ?_⟩
    · rw [hnormalized.entry_of_isSome hsome, State.emitted,
        State.sets_eq_entry hsome]
      exact List.mem_map_of_mem hset
    · rw [Finset.union_assoc, Finset.union_self]
    · exact Finset.union_eq_left.mpr
  · refine ⟨set, middle_entry_subset hemitted ?_, rfl, fun _ => rfl⟩
    rwa [State.entry, hnormalized.untouched index heq]

theorem next_entry_cases {index : graph.NodeIndex} {set : ActiveSet}
    (hset : set ∈ next.entry index) :
    index ≠ parent ∧ set ∈ state.entry index ∨
      set ∈ state.emitted parent ∧ (index = parent ∨ Adjacent parent index) := by
  have hmiddle : set ∈ middle.entry index ∨
      set ∈ state.emitted parent ∧ Adjacent parent index := by
    by_cases hchild : index ∈ (outgoing parent).map Prod.fst
    · exact (((hemitted.received index hchild).mem set).mp hset).imp_right
        fun hmem => ⟨hmem, hchild⟩
    · rw [State.entry, hemitted.untouched index hchild] at hset
      exact .inl hset
  rcases hmiddle with hmiddle | ⟨hmem, hedge⟩
  · by_cases heq : index = parent
    · subst heq
      exact .inr ⟨hnormalized.entry_mem set hmiddle, .inl rfl⟩
    · rw [State.entry, hnormalized.untouched index heq] at hmiddle
      exact .inl ⟨heq, hmiddle⟩
  · exact .inr ⟨hmem, .inr hedge⟩

include hinv

theorem next_nonempty (index : graph.NodeIndex) :
    next.activated index ≠ some [] := by
  by_cases hchild : index ∈ (outgoing parent).map Prod.fst
  · obtain ⟨set, hset⟩ := List.exists_mem_of_ne_nil _ (emitted_ne_nil hinv)
    have hmem := ((hemitted.received index hchild).mem set).mpr (.inr hset)
    intro hnil
    rw [hnil] at hmem
    cases hmem
  · rw [hemitted.untouched index hchild]
    by_cases heq : index = parent
    · subst heq
      exact hnormalized.nonempty (hinv.nonempty index)
    · rw [hnormalized.untouched index heq]
      exact hinv.nonempty index

theorem next_seen_isSome {index : graph.NodeIndex} (hseen : index ∈ next.seen) :
    (next.activated index).isSome = true := by
  by_cases hchild : index ∈ (outgoing parent).map Prod.fst
  · exact (hemitted.received index hchild).isSome (emitted_ne_nil hinv)
  · have hbefore : index ∈ state.seen := by
      rw [hemitted.seen, hnormalized.seen_eq] at hseen
      exact hseen.resolve_right hchild
    have hsome := hinv.seen_isSome index hbefore
    rw [hemitted.untouched index hchild]
    by_cases heq : index = parent
    · subst heq
      obtain ⟨set, hset⟩ := List.exists_mem_of_ne_nil _ (emitted_ne_nil hinv)
      rw [← hnormalized.entry_of_isSome hsome] at hset
      exact State.isSome_of_mem_entry hset
    · rwa [hnormalized.untouched index heq]

theorem next_sets_parent {set : ActiveSet} (hset : set ∈ next.sets parent) :
    set ∈ state.emitted parent := by
  by_cases hchild : parent ∈ (outgoing parent).map Prod.fst
  · have hsome := (hemitted.received parent hchild).isSome (emitted_ne_nil hinv)
    rw [State.sets_eq_entry hsome] at hset
    rcases ((hemitted.received parent hchild).mem set).mp hset with hmiddle | hmem
    · exact hnormalized.entry_mem set hmiddle
    · exact hmem
  · rw [State.sets, hemitted.untouched parent hchild] at hset
    rw [← hnormalized.sets_eq]
    exact hset

include hqueue

theorem next_settled {index : graph.NodeIndex}
    (hknown : isRoot index = true ∨ index ∈ next.seen)
    (hnot : index ∉ next.queue) : Settled next index := by
  obtain ⟨pushed, hpushedQueue, hpushed⟩ := hemitted.queue
  rw [hpushedQueue, hnormalized.queue_eq, List.mem_append, not_or] at hnot
  by_cases heq : index = parent
  · subst heq
    refine ⟨fun set hset => ?_, fun child hedge => ?_, fun child hedge set hset => ?_⟩
    · exact own_subset_emitted (next_sets_parent hinv hnormalized hemitted hset)
    · exact (hemitted.seen child).mpr (.inr hedge)
    · have hmem := next_sets_parent hinv hnormalized hemitted hset
      exact ⟨set, ((hemitted.received child hedge).mem set).mpr (.inr hmem), rfl⟩
  · have hbefore : index ∉ state.queue := by
      rw [hqueue, List.mem_cons, not_or]
      exact ⟨heq, hnot.2⟩
    obtain ⟨hknown, hsub⟩ : (isRoot index = true ∨ index ∈ state.seen) ∧
        ∀ set ∈ next.sets index, set ∈ state.sets index := by
      by_cases hchild : index ∈ (outgoing parent).map Prod.fst
      · -- A child that was not queued had everything it was sent.
        rw [hpushed, not_and, not_or, not_not, hnormalized.seen_eq] at hnot
        obtain ⟨hseen, hnothing⟩ := hnot.1 hchild
        refine ⟨.inr hseen, fun set hset => ?_⟩
        have hreceived := hemitted.received index hchild
        rw [State.sets_eq_entry (hreceived.isSome (emitted_ne_nil hinv))] at hset
        rw [State.sets_eq_entry (hinv.seen_isSome index hseen)]
        have hentry : middle.entry index = state.entry index := by
          rw [State.entry, hnormalized.untouched index heq, State.entry]
        rw [← hentry]
        rcases (hreceived.mem set).mp hset with hmiddle | hmem
        · exact hmiddle
        · by_contra hnone
          exact hnothing ⟨set, hmem, hnone⟩
      · rw [hemitted.seen, or_iff_left hchild, hnormalized.seen_eq] at hknown
        refine ⟨hknown, fun set hset => ?_⟩
        rwa [State.sets, hemitted.untouched index hchild,
          hnormalized.untouched index heq] at hset
    have hsettled := hinv.settled index hknown hbefore
    refine ⟨fun set hset => hsettled.own_subset set (hsub set hset),
      fun child hedge => ?_, fun child hedge set hset => ?_⟩
    · rw [hemitted.seen, hnormalized.seen_eq]
      exact .inl (hsettled.children_seen child hedge)
    · obtain ⟨other, hother, hsame⟩ := hsettled.sent child hedge set (hsub set hset)
      obtain ⟨kept, hkept, hsame', -⟩ := entry_kept hnormalized hemitted hother
      exact ⟨kept, hkept, hsame'.trans hsame⟩

theorem next_invariant : Invariant next where
  nonempty := next_nonempty hinv hnormalized hemitted
  seen_isSome index hseen := next_seen_isSome hinv hnormalized hemitted hseen
  queued index hindex := by
    obtain ⟨pushed, hpushedQueue, hpushed⟩ := hemitted.queue
    rw [hpushedQueue, hnormalized.queue_eq, List.mem_append] at hindex
    rw [hemitted.seen, hnormalized.seen_eq]
    rcases hindex with hindex | hindex
    · exact .inr (.inr ((hpushed index).mp hindex).1)
    · exact (hinv.queued index (by simp [hqueue, hindex])).imp_right .inl
  active index set hset := by
    rcases next_entry_cases hnormalized hemitted hset with
      ⟨-, hentry⟩ | ⟨hmem, rfl | hedge⟩
    · exact hinv.active index set hentry
    · rw [Finset.union_eq_left.mpr (own_subset_emitted hmem)]
      exact emitted_active hinv hqueue hmem
    · exact .step (emitted_active hinv hqueue hmem) hedge
  settled index hknown hnot := next_settled hinv hqueue hnormalized hemitted
    hknown hnot

end Round

theorem invariant_step {state next : State graph} (hinv : Invariant state)
    (hstep : step state = some next) : Invariant next := by
  obtain ⟨parent, rest, middle, hqueue, hnormalized, hemitted⟩ := step_eq_some hstep
  exact next_invariant hinv hqueue hnormalized hemitted

/-! ## What holds when the loop has ended -/

/-- Every set of active items has reached its node. -/
theorem active_mem_sets {state : State graph} (hinv : Invariant state)
    (hdone : state.queue = []) {index : graph.NodeIndex} {set : ActiveSet}
    (hactive : Active index set) :
    (isRoot index = true ∨ index ∈ state.seen) ∧ set ∈ state.sets index := by
  have hnone : ∀ index, index ∉ state.queue := by simp [hdone]
  induction hactive with
  | @root index hroot =>
      have hsettled := hinv.settled index (.inl hroot) (hnone index)
      refine ⟨.inl hroot, ?_⟩
      cases hactivated : state.activated index with
      | none =>
          have hsets : state.sets index = [∅] := by simp [State.sets, hactivated]
          have hown := hsettled.own_subset ∅ (by simp [hsets])
          rw [hsets, Finset.subset_empty.mp hown, List.mem_singleton]
      | some list =>
          have hsome : (state.activated index).isSome = true := by
            rw [hactivated]
            rfl
          have hentry := State.sets_eq_entry hsome
          obtain ⟨set, hset⟩ := List.exists_mem_of_ne_nil (state.sets index)
            (by simpa [State.sets, hactivated] using hinv.nonempty index)
          have hactive := hinv.active index set (hentry ▸ hset)
          rw [Finset.union_eq_left.mpr (hsettled.own_subset set hset)] at hactive
          rwa [← hactive.eq_own_of_isRoot hroot]
  | @step source target set _ hedge ih =>
      obtain ⟨hknown, hset⟩ := ih
      have hsettled := hinv.settled source hknown (hnone source)
      have hseen := hsettled.children_seen target hedge
      have htarget := hinv.settled target (.inr hseen) (hnone target)
      obtain ⟨other, hother, hsame⟩ := hsettled.sent target hedge set hset
      rw [← State.sets_eq_entry (hinv.seen_isSome target hseen)] at hother
      refine ⟨.inr hseen, ?_⟩
      rwa [← hsame, Finset.union_eq_left.mpr (htarget.own_subset other hother)]

/-- Every edge between reachable nodes has carried all sets. -/
def Closed (state : State graph) : Prop :=
  ∀ source target : graph.NodeIndex, Reachable source → Adjacent source target →
    ∀ set ∈ state.sets source, set ∪ own target ∈ state.sets target

theorem exists_active {index : graph.NodeIndex} (hreachable : Reachable index) :
    ∃ set, Active index set := by
  induction hreachable with
  | root hroot => exact ⟨_, .root hroot⟩
  | step _ hedge ih =>
      obtain ⟨set, hactive⟩ := ih
      exact ⟨_, hactive.step hedge⟩

theorem closed_of_done {state : State graph} (hinv : Invariant state)
    (hdone : state.queue = []) : Closed state := by
  intro source target hreachable hedge set hset
  have hnone : ∀ index, index ∉ state.queue := by simp [hdone]
  obtain ⟨_, hactive⟩ := exists_active hreachable
  have hknown := (active_mem_sets hinv hdone hactive).1
  have hsettled := hinv.settled source hknown (hnone source)
  refine (active_mem_sets hinv hdone (.step ?_ hedge)).2
  cases hactivated : state.activated source with
  | some list =>
      have hsome : (state.activated source).isSome = true := by
        rw [hactivated]
        rfl
      have hentry := hinv.active source set (State.sets_eq_entry hsome ▸ hset)
      rwa [Finset.union_eq_left.mpr (hsettled.own_subset set hset)] at hentry
  | none =>
      have hroot : isRoot source = true := by
        refine hknown.resolve_right fun hseen => ?_
        have hsome := hinv.seen_isSome source hseen
        simp [hactivated] at hsome
      have hempty : set = ∅ := by simpa [State.sets, hactivated] using hset
      have hown := hsettled.own_subset set hset
      rw [hempty] at hown ⊢
      rw [← Finset.subset_empty.mp hown]
      exact .root hroot

/-! ## Termination -/

/-- Some path from a root to the node has no node with the item. -/
inductive Avoids (item : ConflictItem) : graph.NodeIndex → Prop where
  | root {index : graph.NodeIndex} (hroot : isRoot index = true)
      (hitem : item ∉ own index) : Avoids item index
  | step {source target : graph.NodeIndex} (hsource : Avoids item source)
      (hedge : Adjacent source target) (hitem : item ∉ own target) :
      Avoids item target

theorem avoids_iff {item : ConflictItem} {index : graph.NodeIndex} :
    Avoids item index ↔ ∃ set, Active index set ∧ item ∉ set := by
  constructor
  · intro havoids
    induction havoids with
    | root hroot hitem => exact ⟨_, .root hroot, hitem⟩
    | step _ hedge hitem ih =>
        obtain ⟨set, hactive, hset⟩ := ih
        exact ⟨_, .step hactive hedge, by simp [hset, hitem]⟩
  · rintro ⟨set, hactive, hset⟩
    induction hactive with
    | root hroot => exact .root hroot hset
    | step _ hedge ih =>
        rw [Finset.mem_union, not_or] at hset
        exact .step (ih hset.1) hedge hset.2

/-- The child carries an item that is missing on some path to the node, so every
visit of the node brings another visit of the child. -/
def Disturbs (source target : graph.NodeIndex) : Prop :=
  Adjacent source target ∧ ∃ item ∈ own target, Avoids item source

theorem disturbs_iff {source target : graph.NodeIndex} :
    Disturbs source target ↔ Adjacent source target ∧
      ∃ set, Active source set ∧ ¬ own target ⊆ set := by
  simp only [Disturbs, avoids_iff, Finset.not_subset]
  constructor
  · rintro ⟨hedge, item, hitem, set, hactive, hset⟩
    exact ⟨hedge, set, hactive, item, hitem, hset⟩
  · rintro ⟨hedge, set, hactive, item, hitem, hset⟩
    exact ⟨hedge, item, hitem, set, hactive, hset⟩

/-- All items of the graph. -/
def items (graph : DiGraph ResolutionGraphNode Edge) : ActiveSet :=
  Finset.univ.biUnion fun index : graph.NodeIndex => own index

theorem Active.subset_items {index : graph.NodeIndex} {set : ActiveSet}
    (hactive : Active index set) : set ⊆ items graph := by
  have hown : ∀ index : graph.NodeIndex, own index ⊆ items graph := fun index =>
    Finset.subset_biUnion_of_mem (fun index : graph.NodeIndex => own index)
      (Finset.mem_univ index)
  induction hactive with
  | root hroot => exact hown _
  | step _ hedge ih => exact Finset.union_subset ih (hown _)

/-- The sets with the node's own items that a node has not received yet. -/
def missing (state : State graph) : Finset (graph.NodeIndex × ActiveSet) :=
  (Finset.univ ×ˢ (items graph).powerset).filter fun (index, set) =>
    own index ⊆ set ∧ set ∉ state.entry index

theorem mem_missing {state : State graph} {index : graph.NodeIndex}
    {set : ActiveSet} :
    (index, set) ∈ missing state ↔
      set ⊆ items graph ∧ own index ⊆ set ∧ set ∉ state.entry index := by
  simp [missing]

/-- What can still be learned. -/
def potential (state : State graph) : ℕ :=
  (missing state).card + state.seenᶜ.card

section Progress

include hnormalized hemitted

theorem missing_subset : missing next ⊆ missing state := by
  rintro ⟨index, set⟩ hmem
  rw [mem_missing] at hmem ⊢
  obtain ⟨hitems, hown, hnot⟩ := hmem
  refine ⟨hitems, hown, fun hset => ?_⟩
  obtain ⟨other, hother, -, hsame⟩ := entry_kept hnormalized hemitted hset
  exact hnot (hsame hown ▸ hother)

theorem seen_subset : state.seen ⊆ next.seen := by
  intro index hseen
  rw [hemitted.seen, hnormalized.seen_eq]
  exact .inl hseen

theorem potential_le : potential next ≤ potential state :=
  Nat.add_le_add (Finset.card_le_card (missing_subset hnormalized hemitted))
    (Finset.card_le_card (Finset.compl_subset_compl.mpr
      (seen_subset hnormalized hemitted)))

theorem eq_of_potential_eq (heq : potential next = potential state) :
    missing next = missing state ∧ next.seen = state.seen := by
  have hmissing := missing_subset hnormalized hemitted
  have hseen := Finset.compl_subset_compl.mpr (seen_subset hnormalized hemitted)
  have hmissingCard := Finset.card_le_card hmissing
  have hseenCard := Finset.card_le_card hseen
  unfold potential at heq
  refine ⟨Finset.eq_of_subset_of_card_le hmissing (by omega), ?_⟩
  exact compl_injective (Finset.eq_of_subset_of_card_le hseen (by omega))

include hinv hqueue

/-- When nothing new was learned, only disturbed children were queued. -/
theorem queue_of_potential_eq (heq : potential next = potential state) :
    ∃ pushed, next.queue = pushed ++ rest ∧
      ∀ index ∈ pushed, Disturbs parent index := by
  obtain ⟨hmissing, hseen⟩ := eq_of_potential_eq hnormalized hemitted heq
  obtain ⟨pushed, hpushedQueue, hpushed⟩ := hemitted.queue
  refine ⟨pushed, by rw [hpushedQueue, hnormalized.queue_eq], fun index hindex => ?_⟩
  obtain ⟨hedge, hreason⟩ := (hpushed index).mp hindex
  rcases hreason with hunseen | ⟨set, hset, hnot⟩
  · rw [hnormalized.seen_eq, ← hseen, hemitted.seen] at hunseen
    exact (hunseen (.inr hedge)).elim
  refine disturbs_iff.mpr
    ⟨hedge, set, emitted_active hinv hqueue hset, fun hown => ?_⟩
  have hnext : set ∈ next.entry index :=
    ((hemitted.received index hedge).mem set).mpr (.inr hset)
  have hbefore : (index, set) ∈ missing state := by
    refine mem_missing.mpr ⟨(emitted_active hinv hqueue hset).subset_items, hown,
      fun hentry => hnot ?_⟩
    by_cases hparent : index = parent
    · subst hparent
      rwa [hnormalized.entry_of_isSome (State.isSome_of_mem_entry hentry)]
    · rwa [State.entry, hnormalized.untouched index hparent]
  rw [← hmissing, mem_missing] at hbefore
  exact hbefore.2.2 hnext

end Progress

end Step

/-- The number of nodes that can be disturbed because of the node. -/
noncomputable def rank (index : graph.NodeIndex) : ℕ :=
  Set.ncard {other | Relation.TransGen Disturbs index other}

theorem rank_lt {source target : graph.NodeIndex}
    (hacyclic : ∀ index : graph.NodeIndex, ¬ Relation.TransGen Disturbs index index)
    (hdisturbs : Disturbs source target) : rank target < rank source := by
  refine Set.ncard_lt_ncard ⟨fun other hother => ?_, fun hsubset => ?_⟩
    (Set.toFinite _)
  · exact Relation.TransGen.head hdisturbs hother
  · exact hacyclic target (hsubset (Relation.TransGen.single hdisturbs))

/-- The measure of the loop: what can still be learned, then the ranks of the
queued nodes. -/
noncomputable def measure (state : State graph) : ℕ × Multiset ℕ :=
  (potential state, (state.queue.map rank : Multiset ℕ))

def Decreases (next state : State graph) : Prop :=
  Prod.Lex (· < ·) Multiset.IsDershowitzMannaLT (measure next) (measure state)

theorem wellFounded_decreases : WellFounded (@Decreases Edge graph) :=
  InvImage.wf measure
    (WellFounded.prod_lex wellFounded_lt Multiset.wellFounded_isDershowitzMannaLT)

theorem decreases_step {state next : State graph}
    (hacyclic : ∀ index : graph.NodeIndex, ¬ Relation.TransGen Disturbs index index)
    (hinv : Invariant state) (hstep : step state = some next) :
    Decreases next state := by
  obtain ⟨parent, rest, middle, hqueue, hnormalized, hemitted⟩ := step_eq_some hstep
  rcases (potential_le hnormalized hemitted).lt_or_eq with hlt | heq
  · exact Prod.Lex.left _ _ hlt
  · obtain ⟨pushed, hnext, hdisturbs⟩ :=
      queue_of_potential_eq hinv hqueue hnormalized hemitted heq
    unfold Decreases measure
    rw [heq]
    refine Prod.Lex.right _ ⟨(rest.map rank : Multiset ℕ),
      (pushed.map rank : Multiset ℕ), {rank parent}, by simp, ?_, ?_, ?_⟩
    · rw [hnext, List.map_append, add_comm, Multiset.coe_add]
    · rw [hqueue, List.map_cons, add_comm]
      rfl
    · intro value hvalue
      obtain ⟨index, hindex, rfl⟩ := List.mem_map.mp hvalue
      exact ⟨rank parent, by simp, rank_lt hacyclic (hdisturbs index hindex)⟩

/-! ## Running forever -/

/-- A non-empty set of nodes each of which disturbs another one of the set. -/
structure Cycle (nodes : Set graph.NodeIndex)
    (succ : graph.NodeIndex → graph.NodeIndex) : Prop where
  nonempty : nodes.Nonempty
  not_isRoot : ∀ index ∈ nodes, isRoot index = false
  maps : ∀ index ∈ nodes, succ index ∈ nodes
  disturbs : ∀ index ∈ nodes, Disturbs index (succ index)

theorem exists_cycle {index : graph.NodeIndex}
    (hcycle : Relation.TransGen Disturbs index index) :
    ∃ nodes succ, @Cycle Edge graph nodes succ := by
  have hnext : ∀ index : graph.NodeIndex, ∃ other,
      Relation.TransGen Disturbs index index →
        Disturbs index other ∧ Relation.TransGen Disturbs other other := by
    intro index
    by_cases hcycle : Relation.TransGen Disturbs index index
    · obtain ⟨other, hdisturbs, hback⟩ := Relation.TransGen.head'_iff.mp hcycle
      exact ⟨other, fun _ => ⟨hdisturbs, .tail' hback hdisturbs⟩⟩
    · exact ⟨index, fun hself => (hcycle hself).elim⟩
  choose succ hsucc using hnext
  have hroot : ∀ index : graph.NodeIndex,
      Relation.TransGen Disturbs index index → isRoot index = false := by
    intro index hcycle
    obtain ⟨source, -, hdisturbs⟩ := Relation.TransGen.tail'_iff.mp hcycle
    exact hdisturbs.1.not_isRoot
  exact ⟨{index | Relation.TransGen Disturbs index index}, succ, ⟨index, hcycle⟩,
    hroot, fun index hindex => (hsucc index hindex).2,
    fun index hindex => (hsucc index hindex).1⟩

/-- The node holds a set that lacks an item of its successor. -/
def Ready (succ : graph.NodeIndex → graph.NodeIndex) (state : State graph)
    (index : graph.NodeIndex) : Prop :=
  ∃ set ∈ state.entry index, ¬ own (succ index) ⊆ set ∪ own index

/-- Once every node of the cycle is ready, one of them is always queued. -/
def Busy (nodes : Set graph.NodeIndex) (succ : graph.NodeIndex → graph.NodeIndex)
    (state : State graph) : Prop :=
  (∀ index ∈ nodes, Ready succ state index) → ∃ index ∈ nodes, index ∈ state.queue

section Forever

variable {nodes : Set graph.NodeIndex}
  {succ : graph.NodeIndex → graph.NodeIndex} {state middle next : State graph}
  {parent : graph.NodeIndex} {rest : List graph.NodeIndex}
  (hcycle : Cycle nodes succ) (hinv : Invariant state)
  (hqueue : state.queue = parent :: rest)
  (hnormalized : Normalized state middle parent rest)
  (hemitted : Emitted (state.emitted parent) ((outgoing parent).map Prod.fst)
    middle next)

include hcycle hinv hqueue hnormalized hemitted

/-- A visited node of the cycle leaves its successor queued. -/
theorem succ_queued (hparent : parent ∈ nodes) (hready : Ready succ state parent) :
    succ parent ∈ next.queue := by
  obtain ⟨set, hset, hlacks⟩ := hready
  have hmem : set ∪ own parent ∈ state.emitted parent := by
    refine List.mem_map_of_mem ?_
    rwa [State.sets_eq_entry (State.isSome_of_mem_entry hset)]
  have hne : succ parent ≠ parent := by
    intro hsame
    rw [hsame] at hlacks
    exact hlacks Finset.subset_union_right
  obtain ⟨pushed, hpushedQueue, hpushed⟩ := hemitted.queue
  rw [hpushedQueue, hnormalized.queue_eq, List.mem_append]
  by_cases hpush : succ parent ∈ pushed
  · exact .inl hpush
  -- The successor holds the set without its own items, so it is queued already.
  rw [hpushed, not_and, not_or, not_not, hnormalized.seen_eq] at hpush
  obtain ⟨hseen, hnothing⟩ := hpush (hcycle.disturbs parent hparent).1
  have hholds : set ∪ own parent ∈ state.entry (succ parent) := by
    by_contra hnone
    refine hnothing ⟨_, hmem, ?_⟩
    rwa [State.entry, hnormalized.untouched _ hne]
  have hqueued : succ parent ∈ state.queue := by
    by_contra hnot
    have hsettled := hinv.settled _ (.inr hseen) hnot
    refine hlacks (hsettled.own_subset _ ?_)
    rwa [State.sets_eq_entry (hinv.seen_isSome _ hseen)]
  rw [hqueue, List.mem_cons] at hqueued
  exact .inr (hqueued.resolve_left hne)

/-- A node of the cycle that becomes ready is queued. -/
theorem ready_queued {index : graph.NodeIndex} (hindex : index ∈ nodes)
    (hbefore : ¬ Ready succ state index) (hafter : Ready succ next index) :
    index ∈ next.queue := by
  obtain ⟨set, hset, hlacks⟩ := hafter
  have hnew : set ∉ state.entry index := fun hentry => hbefore ⟨set, hentry, hlacks⟩
  rcases next_entry_cases hnormalized hemitted hset with
    ⟨-, hentry⟩ | ⟨hmem, heither⟩
  · exact (hnew hentry).elim
  by_cases heq : index = parent
  · -- Normalizing a node does not change whether it is ready.
    subst heq
    have hseen := (hinv.queued index (by simp [hqueue])).resolve_left
      (by simp [hcycle.not_isRoot index hindex])
    obtain ⟨other, hother, rfl⟩ := List.mem_map.mp hmem
    rw [State.sets_eq_entry (hinv.seen_isSome index hseen)] at hother
    rw [Finset.union_assoc, Finset.union_self] at hlacks
    exact (hbefore ⟨other, hother, hlacks⟩).elim
  · obtain ⟨pushed, hpushedQueue, hpushed⟩ := hemitted.queue
    rw [hpushedQueue, List.mem_append]
    refine .inl ((hpushed index).mpr ⟨heither.resolve_left heq, .inr
      ⟨set, hmem, ?_⟩⟩)
    rwa [State.entry, hnormalized.untouched index heq]

theorem next_busy (hbusy : Busy nodes succ state) : Busy nodes succ next := by
  intro hafter
  by_cases hbefore : ∀ index ∈ nodes, Ready succ state index
  · obtain ⟨index, hindex, hqueued⟩ := hbusy hbefore
    rw [hqueue, List.mem_cons] at hqueued
    rcases hqueued with rfl | hrest
    · exact ⟨succ index, hcycle.maps index hindex,
        succ_queued hcycle hinv hqueue hnormalized hemitted hindex
          (hbefore index hindex)⟩
    · obtain ⟨pushed, hpushedQueue, -⟩ := hemitted.queue
      refine ⟨index, hindex, ?_⟩
      rw [hpushedQueue, hnormalized.queue_eq, List.mem_append]
      exact .inr hrest
  · push Not at hbefore
    obtain ⟨index, hindex, hnot⟩ := hbefore
    exact ⟨index, hindex, ready_queued hcycle hinv hqueue hnormalized hemitted
      hindex hnot (hafter index hindex)⟩

end Forever

theorem step_eq_none {state : State graph} : step state = none ↔ state.queue = [] := by
  unfold step
  cases hqueue : state.queue <;> simp

/-- A cycle of disturbed nodes keeps the loop running. -/
theorem not_ends_of_cycle {index : graph.NodeIndex}
    (hcycle : Relation.TransGen Disturbs index index) :
    ¬ ∃ fuel final, propagate graph fuel = some final := by
  rintro ⟨fuel, final, hloop⟩
  obtain ⟨nodes, succ, hcycle⟩ := exists_cycle hcycle
  have hstart : Invariant (start graph) ∧ Busy nodes succ (start graph) := by
    refine ⟨invariant_start, fun hready => ?_⟩
    obtain ⟨index, hindex⟩ := hcycle.nonempty
    obtain ⟨set, hset, -⟩ := hready index hindex
    simp [State.entry, start] at hset
  have hkeeps : ∀ {state next : State graph},
      Invariant state ∧ Busy nodes succ state → step state = some next →
        Invariant next ∧ Busy nodes succ next := by
    rintro state next ⟨hinv, hbusy⟩ hstep
    obtain ⟨parent, rest, middle, hqueue, hnormalized, hemitted⟩ :=
      step_eq_some hstep
    exact ⟨next_invariant hinv hqueue hnormalized hemitted,
      next_busy hcycle hinv hqueue hnormalized hemitted hbusy⟩
  obtain ⟨⟨hinv, hbusy⟩, hdone⟩ := Loop.invariant hkeeps hstart hloop
  rw [step_eq_none] at hdone
  have hready : ∀ index ∈ nodes, Ready succ final index := by
    intro index hindex
    obtain ⟨-, set, hactive, hlacks⟩ :=
      disturbs_iff.mp (hcycle.disturbs index hindex)
    obtain ⟨hknown, hset⟩ := active_mem_sets hinv hdone hactive
    have hseen := hknown.resolve_left (by simp [hcycle.not_isRoot index hindex])
    rw [State.sets_eq_entry (hinv.seen_isSome index hseen)] at hset
    refine ⟨set, hset, ?_⟩
    rwa [Finset.union_eq_left.mpr hactive.own_subset]
  obtain ⟨index, -, hqueued⟩ := hbusy hready
  rw [hdone] at hqueued
  cases hqueued

/-- The propagation loop ends, with every set carried along every edge, exactly
when no cycle of nodes disturb each other. -/
theorem propagate_ends_iff (graph : DiGraph ResolutionGraphNode Edge) :
    (∃ fuel final, propagate graph fuel = some final ∧ Closed final) ↔
      ¬ ∃ index : graph.NodeIndex, Relation.TransGen Disturbs index index := by
  constructor
  · rintro ⟨fuel, final, hloop, -⟩ ⟨index, hcycle⟩
    exact not_ends_of_cycle hcycle ⟨fuel, final, hloop⟩
  · intro hacyclic
    obtain ⟨fuel, final, hloop⟩ := Loop.ends wellFounded_decreases
      (fun hinv hstep => ⟨invariant_step hinv hstep,
        decreases_step (not_exists.mp hacyclic) hinv hstep⟩)
      (invariant_start : Invariant (start graph))
    obtain ⟨hinv, hdone⟩ := Loop.invariant invariant_step invariant_start hloop
    exact ⟨fuel, final, hloop, closed_of_done hinv (step_eq_none.mp hdone)⟩

/-- Two extras of a package that depend on each other, both dependencies of the
root. -/
def mutualExtras : DiGraph ResolutionGraphNode Unit where
  nodes := [.root,
    .dist ⟨"p".toList, by decide⟩ (some ⟨"a".toList, by decide⟩) none,
    .dist ⟨"p".toList, by decide⟩ (some ⟨"b".toList, by decide⟩) none]
  edges := [(0, 1, ()), (0, 2, ()), (1, 2, ()), (2, 1, ())]

private theorem mutualExtras_avoids {index : mutualExtras.NodeIndex}
    {item : ConflictItem}
    (hedge : Adjacent (⟨0, by decide⟩ : mutualExtras.NodeIndex) index)
    (hitem : item ∉ own index) : Avoids item index := by
  refine .step (.root ?_ ?_) hedge hitem
  · decide
  · have hnone : own (⟨0, by decide⟩ : mutualExtras.NodeIndex) = ∅ := by decide
    rw [hnone]
    exact Finset.notMem_empty item

/-- Each of the two extras keeps sending a set without the other one. -/
theorem mutualExtras_never_ends :
    ¬ ∃ fuel final, propagate mutualExtras fuel = some final ∧ Closed final := by
  have hforth : Disturbs (⟨1, by decide⟩ : mutualExtras.NodeIndex)
      ⟨2, by decide⟩ :=
    ⟨by decide, .ofExtra ⟨"p".toList, by decide⟩ ⟨"b".toList, by decide⟩,
      by decide, mutualExtras_avoids (by decide) (by decide)⟩
  have hback : Disturbs (⟨2, by decide⟩ : mutualExtras.NodeIndex)
      ⟨1, by decide⟩ :=
    ⟨by decide, .ofExtra ⟨"p".toList, by decide⟩ ⟨"a".toList, by decide⟩,
      by decide, mutualExtras_avoids (by decide) (by decide)⟩
  rintro ⟨fuel, final, hloop, -⟩
  exact not_ends_of_cycle (.tail (.single hforth) hback) ⟨fuel, final, hloop⟩

end Activation

end Uv.Resolver
