import Uv.Pep508.Evaluate
import Uv.Core.Growing

/-!
# The meaning of a diagram

A valuation gives every version and string key a place in its order and every
boolean variable a truth value.  The edges of a well-formed node cover the whole
order, so exactly one of them is picked, and following the picked edges decides
whether a diagram holds.

An environment is a valuation whose places are values.
-/

namespace Uv.Pep508

open Uv.Core Uv.Pep440

/-! ## Edges as labelled tilings -/

section Cover

variable {T : Type} [OrdKey T]

/-- The cuts and the child of every edge. -/
def tilesOf (edges : List (Ranges T × NodeId)) :
    List ((Cut T × WithTop (Cut T)) × NodeId) :=
  edges.map fun edge => (edge.1.hull, edge.2)

/-- The edges are intervals that cover the whole order one after the other. -/
structure Cover (edges : List (Ranges T × NodeId)) : Prop where
  interval : ∀ edge ∈ edges, edge.1.IsInterval edge.1.hull
  tiles : Tiles ((⊥ : Cut T) : WithTop (Cut T))
    ((tilesOf edges).map Prod.fst) ⊤

/-- The point lies on an edge to the child. -/
def OnEdge (point : Point (Cut T)) (edges : List (Ranges T × NodeId))
    (child : NodeId) : Prop :=
  ∃ tile ∈ tilesOf edges, tile.2 = child ∧ point.In tile.1

theorem onEdge_iff {point : Point (Cut T)} {edges : List (Ranges T × NodeId)}
    {child : NodeId} :
    OnEdge point edges child ↔
      ∃ edge ∈ edges, edge.2 = child ∧ point.In edge.1.hull := by
  simp [OnEdge, tilesOf]

theorem OnEdge.mem {point : Point (Cut T)} {edges : List (Ranges T × NodeId)}
    {child : NodeId} (hedge : OnEdge point edges child) :
    child ∈ edges.map Prod.snd := by
  obtain ⟨edge, hmem, rfl, -⟩ := onEdge_iff.mp hedge
  exact List.mem_map_of_mem hmem

namespace Cover

variable {edges : List (Ranges T × NodeId)}

theorem exists_onEdge (hcover : Cover edges) (point : Point (Cut T)) :
    ∃ child, OnEdge point edges child := by
  have hbottom : point.belowTop ((⊥ : Cut T) : WithTop (Cut T)) :=
    point.below_bot
  obtain ⟨cuts, hcuts, hin⟩ :=
    hcover.tiles.exists_in hbottom (Point.belowTop_top point)
  obtain ⟨tile, htile, rfl⟩ := List.mem_map.mp hcuts
  exact ⟨tile.2, tile, htile, rfl, hin⟩

theorem onEdge_unique (hcover : Cover edges) {point : Point (Cut T)}
    {child child' : NodeId} (hchild : OnEdge point edges child)
    (hchild' : OnEdge point edges child') : child = child' := by
  obtain ⟨tile, htile, rfl, hin⟩ := hchild
  obtain ⟨tile', htile', rfl, hin'⟩ := hchild'
  rw [hcover.tiles.label_unique htile htile' hin hin']

theorem ne_nil (hcover : Cover edges) : edges ≠ [] := by
  rintro rfl
  have htop : ((⊥ : Cut T) : WithTop (Cut T)) = ⊤ := hcover.tiles
  exact WithTop.coe_ne_top htop

/-- Every edge has a point, from any class of points that meets all
intervals. -/
theorem exists_point (hcover : Cover edges) {points : Point (Cut T) → Prop}
    (hpoints : Separates points) {child : NodeId}
    (hchild : child ∈ edges.map Prod.snd) :
    ∃ point, points point ∧ OnEdge point edges child := by
  obtain ⟨edge, hmem, rfl⟩ := List.mem_map.mp hchild
  obtain ⟨point, hpoint, hin⟩ :=
    hpoints edge.1.hull (hcover.interval edge hmem).nonempty
  exact ⟨point, hpoint, onEdge_iff.mpr ⟨edge, hmem, rfl, hin⟩⟩

/-- Equal edges have the same cuts and children. -/
theorem beqRanges_iff {left right : List (Ranges T × NodeId)}
    (hleft : ∀ edge ∈ left, edge.1.IsInterval edge.1.hull)
    (hright : ∀ edge ∈ right, edge.1.IsInterval edge.1.hull) :
    Edges.beqRanges left right = true ↔ tilesOf left = tilesOf right := by
  induction left generalizing right with
  | nil => cases right <;> simp [Edges.beqRanges, tilesOf]
  | cons edge left ih =>
      cases right with
      | nil => simp [Edges.beqRanges, tilesOf]
      | cons edge' right =>
          have htail := ih
            (fun edge hedge => hleft edge (List.mem_cons_of_mem _ hedge))
            (fun edge hedge => hright edge (List.mem_cons_of_mem _ hedge))
          have hhead := (hleft edge (by simp)).beq_iff (hright edge' (by simp))
          simp only [Edges.beqRanges, tilesOf, List.length_cons, List.zip_cons_cons,
            List.all_cons, List.map_cons, List.cons.injEq, Prod.mk.injEq,
            Bool.and_eq_true, beq_iff_eq, Nat.add_right_cancel_iff, hhead]
            at htail ⊢
          tauto

end Cover

end Cover

/-! ## Edges of a variable -/

/-- What a variable ranges over. -/
inductive Domain where
  | version (key : CanonicalMarkerValueVersion)
  | string (key : CanonicalMarkerValueString)
  | boolean

def Variable.domain : Variable → Domain
  | .version key => .version key
  | .string key => .string key
  | _ => .boolean

/-- The cuts and children of the edges. -/
inductive Branches where
  | version (tiles : List ((Cut ValidVersion × WithTop (Cut ValidVersion)) × NodeId))
  | string (tiles : List ((Cut Text × WithTop (Cut Text)) × NodeId))
  | boolean (high low : NodeId)

namespace Edges

def branches : Edges → Branches
  | .version edges => .version (tilesOf edges)
  | .string edges => .string (tilesOf edges)
  | .boolean high low => .boolean high low

/-- The edges are of the kind of the variable and leave no value out. -/
def Fits (var : Variable) (edges : Edges) : Prop :=
  match var.domain, edges with
  | .version _, .version edges => Cover edges
  | .string _, .string edges => Cover edges
  | .boolean, .boolean _ _ => True
  | _, _ => False

theorem Fits.beq_iff {var : Variable} {left right : Edges}
    (hleft : left.Fits var) (hright : right.Fits var) :
    left.beq right = true ↔ left.branches = right.branches := by
  unfold Fits at hleft hright
  cases hdomain : var.domain <;> cases left <;> cases right <;>
    simp only [hdomain] at hleft hright
  · simpa [beq, branches] using
      Cover.beqRanges_iff hleft.interval hright.interval
  · simpa [beq, branches] using
      Cover.beqRanges_iff hleft.interval hright.interval
  · simp [beq, branches]

theorem Fits.nodes_ne_nil {var : Variable} {edges : Edges}
    (hfits : edges.Fits var) : edges.nodes ≠ [] := by
  unfold Fits at hfits
  cases hdomain : var.domain <;> cases edges <;> simp only [hdomain] at hfits
  · simpa [nodes] using hfits.ne_nil
  · simpa [nodes] using hfits.ne_nil
  · simp [nodes]

theorem nodes_eq_of_branches_eq {left right : Edges}
    (heq : left.branches = right.branches) : left.nodes = right.nodes := by
  have hnodes : ∀ {T : Type} [OrdKey T] (edges : List (Ranges T × NodeId)),
      edges.map Prod.snd = (tilesOf edges).map Prod.snd := by
    intro T _ edges
    simp [tilesOf]
  cases left <;> cases right <;> simp only [branches, Branches.version.injEq,
    Branches.string.injEq, Branches.boolean.injEq, reduceCtorEq] at heq
  · simp only [nodes, hnodes, heq]
  · simp only [nodes, hnodes, heq]
  · simp [nodes, heq]

end Edges

/-! ## Valuations -/

/-- A place in the order for each version and string key and a truth value for
each boolean variable. -/
structure Valuation where
  version : CanonicalMarkerValueVersion → Point (Cut ValidVersion)
  string : CanonicalMarkerValueString → Point (Cut Text)
  bool : Variable → Bool

/-- The child a variable's value leads to. -/
def Valuation.Picks (v : Valuation) (var : Variable) (edges : Edges)
    (child : NodeId) : Prop :=
  match var.domain, edges with
  | .version key, .version edges => OnEdge (v.version key) edges child
  | .string key, .string edges => OnEdge (v.string key) edges child
  | .boolean, .boolean high low => child = if v.bool var then high else low
  | _, _ => False

namespace Valuation

variable {v : Valuation} {var : Variable} {edges : Edges} {child : NodeId}

theorem Picks.mem (hpick : v.Picks var edges child) : child ∈ edges.nodes := by
  unfold Picks at hpick
  cases hdomain : var.domain <;> cases edges <;> simp only [hdomain] at hpick
  · exact hpick.mem
  · exact hpick.mem
  · rw [hpick, Edges.nodes]
    split <;> simp

theorem exists_picks (v : Valuation) (hfits : edges.Fits var) :
    ∃ child, v.Picks var edges child := by
  unfold Picks
  unfold Edges.Fits at hfits
  cases hdomain : var.domain <;> cases edges <;>
    simp only [hdomain] at hfits ⊢
  · exact hfits.exists_onEdge _
  · exact hfits.exists_onEdge _
  · exact ⟨_, rfl⟩

theorem picks_unique {child' : NodeId} (hfits : edges.Fits var)
    (hpick : v.Picks var edges child) (hpick' : v.Picks var edges child') :
    child = child' := by
  unfold Picks at hpick hpick'
  unfold Edges.Fits at hfits
  cases hdomain : var.domain <;> cases edges <;>
    simp only [hdomain] at hfits hpick hpick'
  · exact hfits.onEdge_unique hpick hpick'
  · exact hfits.onEdge_unique hpick hpick'
  · exact hpick.trans hpick'.symm

theorem picks_congr {edges' : Edges} (heq : edges.branches = edges'.branches) :
    v.Picks var edges child ↔ v.Picks var edges' child := by
  unfold Picks
  cases edges <;> cases edges' <;> simp only [Edges.branches,
    Branches.version.injEq, Branches.string.injEq, Branches.boolean.injEq,
    reduceCtorEq] at heq
  · cases var.domain <;> simp only [OnEdge, heq]
  · cases var.domain <;> simp only [OnEdge, heq]
  · simp only [heq.1, heq.2]

theorem picks_boolean (hdomain : var.domain = .boolean) (value : Bool) (high low : NodeId) :
    Picks ⟨fun _ => .ofPosition ⊥, fun _ => .ofPosition ⊥, fun _ => value⟩ var
      (.boolean high low) (if value then high else low) := by
  simp [Picks, hdomain]

/-- Two valuations agree on a variable when they pick the same edges. -/
def AgreeOn (v v' : Valuation) (var : Variable) : Prop :=
  ∀ edges child, v.Picks var edges child ↔ v'.Picks var edges child

end Valuation

/-! ## The complement of edges -/

section Not

variable {T : Type} [OrdKey T]

/-- Apply a function to every label. -/
def relabel (f : NodeId → NodeId) (edges : List (Ranges T × NodeId)) :
    List (Ranges T × NodeId) :=
  edges.map fun edge => (edge.1, f edge.2)

theorem tilesOf_relabel (f : NodeId → NodeId) (edges : List (Ranges T × NodeId)) :
    (tilesOf (relabel f edges)).map Prod.fst = (tilesOf edges).map Prod.fst := by
  simp [tilesOf, relabel]

theorem Cover.relabel {edges : List (Ranges T × NodeId)} (hcover : Cover edges)
    (f : NodeId → NodeId) : Cover (relabel f edges) := by
  refine ⟨?_, by rw [tilesOf_relabel]; exact hcover.tiles⟩
  intro edge hedge
  obtain ⟨edge, hmem, rfl⟩ := List.mem_map.mp hedge
  exact hcover.interval edge hmem

theorem onEdge_not {point : Point (Cut T)} {edges : List (Ranges T × NodeId)}
    {child : NodeId} :
    OnEdge point (relabel NodeId.not edges) child ↔
      OnEdge point edges child.not := by
  rw [onEdge_iff, onEdge_iff]
  constructor
  · rintro ⟨edge, hedge, rfl, hin⟩
    obtain ⟨edge, hmem, rfl⟩ := List.mem_map.mp hedge
    exact ⟨edge, hmem, by simp, hin⟩
  · rintro ⟨edge, hmem, hnot, hin⟩
    exact ⟨_, List.mem_map_of_mem hmem, by simp [hnot], hin⟩

end Not

namespace Edges

theorem nodes_not (edges : Edges) : edges.not.nodes = edges.nodes.map NodeId.not := by
  cases edges <;> simp [not, nodes]

theorem Fits.not {var : Variable} {edges : Edges} (hfits : edges.Fits var) :
    edges.not.Fits var := by
  unfold Fits at hfits ⊢
  cases hdomain : var.domain <;> cases edges <;>
    simp only [hdomain, Edges.not] at hfits ⊢
  · exact hfits.relabel NodeId.not
  · exact hfits.relabel NodeId.not

theorem picks_not {v : Valuation} {var : Variable} {edges : Edges}
    {child : NodeId} :
    v.Picks var edges.not child ↔ v.Picks var edges child.not := by
  unfold Valuation.Picks
  cases hdomain : var.domain <;> cases edges <;> simp only [Edges.not]
  · exact onEdge_not
  · exact onEdge_not
  · split
    · exact ⟨fun h => by rw [h, NodeId.not_not], fun h => by rw [← h, NodeId.not_not]⟩
    · exact ⟨fun h => by rw [h, NodeId.not_not], fun h => by rw [← h, NodeId.not_not]⟩

end Edges

end Uv.Pep508
