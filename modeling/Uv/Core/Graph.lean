import Mathlib

/-!
# Directed graphs with parallel edges

Nodes and edges are kept in the order they were added and are named by their
positions.  Self loops and parallel edges are permitted.
-/

namespace Uv.Core

/-- A directed graph with node and edge weights. -/
structure DiGraph (Node Edge : Type) where
  nodes : List Node
  edges : List (Fin nodes.length × Fin nodes.length × Edge)

namespace DiGraph

variable {Node Edge : Type} (graph : DiGraph Node Edge)

abbrev NodeIndex : Type := Fin graph.nodes.length

variable {graph}

/-- `graph[index]`. -/
def node (index : graph.NodeIndex) : Node := graph.nodes.get index

/-- The edges out of a node, the last one added first. -/
def outgoing (index : graph.NodeIndex) : List (graph.NodeIndex × Edge) :=
  (graph.edges.reverse.filter (·.1 = index)).map (·.2)

/-- `edges_directed(index, Incoming).next().is_none()`. -/
def isRoot (index : graph.NodeIndex) : Bool :=
  !graph.edges.any (·.2.1 = index)

variable (graph)

/-- The nodes without incoming edges. -/
def roots : List graph.NodeIndex := (List.finRange _).filter isRoot

variable {graph}

/-- Some edge leads from one node to the other. -/
def Adjacent (source target : graph.NodeIndex) : Prop :=
  target ∈ (outgoing source).map Prod.fst

instance (source target : graph.NodeIndex) : Decidable (Adjacent source target) :=
  inferInstanceAs (Decidable (target ∈ (outgoing source).map Prod.fst))

/-- A node on some path that starts at a node without incoming edges. -/
inductive Reachable : graph.NodeIndex → Prop where
  | root {index : graph.NodeIndex} (hroot : isRoot index = true) :
      Reachable index
  | step {source target : graph.NodeIndex} (hsource : Reachable source)
      (hedge : Adjacent source target) : Reachable target

theorem mem_roots {index : graph.NodeIndex} :
    index ∈ graph.roots ↔ isRoot index = true := by
  simp [roots]

theorem Adjacent.not_isRoot {source target : graph.NodeIndex}
    (hedge : Adjacent source target) : isRoot target = false := by
  obtain ⟨⟨index, weight⟩, hmem, rfl⟩ := List.mem_map.mp hedge
  obtain ⟨edge, hedge, hsame⟩ := List.mem_map.mp hmem
  obtain ⟨hedge, -⟩ := List.mem_filter.mp hedge
  have hany : graph.edges.any (·.2.1 = index) = true :=
    List.any_eq_true.mpr ⟨edge, List.mem_reverse.mp hedge, by simp [hsame]⟩
  rw [isRoot, hany]
  rfl

end DiGraph

/-! ## Cycles of a relation -/

open Relation

variable {α : Type*} {next : α → α → Prop}

/-- Some cycle can be reached from the element. -/
def ReachesCycle (next : α → α → Prop) (start : α) : Prop :=
  ∃ cycle, ReflTransGen next start cycle ∧ TransGen next cycle cycle

/-- The next element on the way to a cycle, or around it, reaches it too. -/
theorem ReachesCycle.exists_next {start : α} (hcycle : ReachesCycle next start) :
    ∃ succ, next start succ ∧ ReachesCycle next succ := by
  obtain ⟨cycle, hreach, haround⟩ := hcycle
  rcases hreach.cases_head with rfl | ⟨succ, hnext, hrest⟩
  · obtain ⟨succ, hnext, hback⟩ := TransGen.head'_iff.mp haround
    exact ⟨succ, hnext, start, hback, haround⟩
  · exact ⟨succ, hnext, cycle, hrest, haround⟩

/-- Among finitely many elements, those reached from one that reaches no cycle
can be visited by recursion along the relation. -/
theorem wellFounded_of_not_reachesCycle [Finite α] {start : α}
    (hacyclic : ¬ ReachesCycle next start) :
    WellFounded fun succ x => TransGen next x succ ∧ ReflTransGen next start x := by
  let rel := fun succ x => TransGen next x succ ∧ ReflTransGen next start x
  have htrans : IsTrans α rel := by
    constructor
    intro a b c hab hbc
    exact ⟨hbc.1.trans hab.1, hbc.2⟩
  have hirrefl : Std.Irrefl rel := by
    constructor
    intro x hx
    exact hacyclic ⟨x, hx.2, hx.1⟩
  exact Finite.wellFounded_of_trans_of_irrefl rel

/-! ## Topological orders -/

/-- No edge leads back in the list, nor from an element to itself. -/
structure Topological (next : α → α → Prop) (order : List α) : Prop where
  pairwise : order.Pairwise fun x y => ¬ next y x
  irrefl : ∀ x ∈ order, ¬ next x x

/-- The edges out of the elements that have been visited. -/
def Visited (next : α → α → Prop) (done : List α) (x y : α) : Prop :=
  x ∈ done ∧ next x y

theorem Visited.mono {done done' : List α} (hsub : done ⊆ done') {x y : α}
    (hvisited : Visited next done x y) : Visited next done' x y :=
  ⟨hsub hvisited.1, hvisited.2⟩

/-- Visiting one more element only adds the ends of its own edges: what these
lead to has not been visited. -/
theorem Topological.reflTransGen_visited {done rest : List α} {x : α}
    (horder : Topological next (done ++ x :: rest)) {start y : α} :
    ReflTransGen (Visited next (done ++ [x])) start y ↔
      ReflTransGen (Visited next done) start y ∨
        ReflTransGen (Visited next done) start x ∧ next x y := by
  obtain ⟨-, -, hacross⟩ := List.pairwise_append.mp horder.pairwise
  constructor
  · intro hreach
    induction hreach with
    | refl => exact .inl .refl
    | tail _ hstep ih =>
        obtain ⟨hmem, hedge⟩ := hstep
        rcases List.mem_append.mp hmem with hdone | hlast
        · rcases ih with hleft | ⟨-, hback⟩
          · exact .inl (hleft.tail ⟨hdone, hedge⟩)
          · exact (hacross _ hdone x (by simp) hback).elim
        · rw [List.mem_singleton.mp hlast] at hedge ih
          rcases ih with hleft | ⟨-, hself⟩
          · exact .inr ⟨hleft, hedge⟩
          · exact (horder.irrefl x (by simp) hself).elim
  · have hmono : ReflTransGen (Visited next done) ≤
        ReflTransGen (Visited next (done ++ [x])) :=
      .mono fun _ _ => Visited.mono (List.subset_append_left _ _)
    rintro (hleft | ⟨hleft, hedge⟩)
    · exact hmono _ _ hleft
    · exact (hmono _ _ hleft).tail ⟨by simp, hedge⟩

theorem Topological.transGen_visited {done rest : List α} {x : α}
    (horder : Topological next (done ++ x :: rest)) {start y : α} :
    TransGen (Visited next (done ++ [x])) start y ↔
      TransGen (Visited next done) start y ∨
        ReflTransGen (Visited next done) start x ∧ next x y := by
  obtain ⟨-, -, hacross⟩ := List.pairwise_append.mp horder.pairwise
  constructor
  · intro hreach
    obtain ⟨z, hstart, hmem, hedge⟩ := TransGen.tail'_iff.mp hreach
    rw [horder.reflTransGen_visited] at hstart
    rcases List.mem_append.mp hmem with hdone | hlast
    · rcases hstart with hleft | ⟨-, hback⟩
      · exact .inl (.tail' hleft ⟨hdone, hedge⟩)
      · exact (hacross _ hdone x (by simp) hback).elim
    · rw [List.mem_singleton.mp hlast] at hedge hstart
      rcases hstart with hleft | ⟨-, hself⟩
      · exact .inr ⟨hleft, hedge⟩
      · exact (horder.irrefl x (by simp) hself).elim
  · have hmono : Visited next done ≤ Visited next (done ++ [x]) :=
      fun _ _ => Visited.mono (List.subset_append_left _ _)
    rintro (hleft | ⟨hleft, hedge⟩)
    · exact TransGen.mono hmono _ _ hleft
    · exact .tail' (ReflTransGen.mono hmono _ _ hleft) ⟨by simp, hedge⟩

theorem Topological.not_transGen_visited {order : List α}
    (horder : Topological next order) (x : α) : ¬ TransGen (Visited next order) x x := by
  induction order using List.reverseRecOn with
  | nil =>
      intro hcycle
      obtain ⟨_, hstep, -⟩ := TransGen.head'_iff.mp hcycle
      cases hstep.1
  | append_singleton order last ih =>
      obtain ⟨hpairwise, -, hacross⟩ := List.pairwise_append.mp horder.pairwise
      have hbefore : Topological next order :=
        ⟨hpairwise, fun y hy => horder.irrefl y (List.mem_append_left _ hy)⟩
      rw [horder.transGen_visited]
      rintro (hcycle | ⟨hreach, hedge⟩)
      · exact ih hbefore hcycle
      · rcases hreach.cases_head with rfl | ⟨_, hstep, -⟩
        · exact horder.irrefl x (by simp) hedge
        · exact hacross x hstep.1 last (by simp) hedge

end Uv.Core
