import Mathlib

/-!
# Worklists

A worklist takes items from a queue until it is empty.  Working on an item may put other
items at the end of the queue, each key once.  If the keys come from a finite list, the
queue gets empty; the keys that were seen are then closed under what the items put there.
-/

namespace Uv.Core

variable {ι κ σ ε : Type*} [DecidableEq κ]

/-- The items to work on, the keys that have been put there, and the rest of the state. -/
structure Worklist (ι κ σ : Type*) where
  queue : List ι
  seen : List κ
  state : σ

namespace Worklist

/-- Put an item at the end of the queue unless its key was seen. -/
def push (key : κ) (item : ι) (work : Worklist ι κ σ) : Worklist ι κ σ :=
  if key ∈ work.seen then work
  else { work with queue := work.queue ++ [item], seen := key :: work.seen }

omit [DecidableEq κ] in
/-- Work on the items of the queue until it is empty, at most `fuel` of them. -/
def run (step : ι → Worklist ι κ σ → Except ε (Worklist ι κ σ)) :
    ℕ → Worklist ι κ σ → Except ε (Worklist ι κ σ)
  | 0, work => .ok work
  | fuel + 1, work =>
      match work.queue with
      | [] => .ok work
      | item :: queue => do run step fuel (← step item { work with queue })

/-! ## What was put in the queue -/

variable {key : ι → κ} {keys keys' : κ → Prop} {work work' work'' : Worklist ι κ σ}

omit [DecidableEq κ] in
/-- The items with these keys were put in the queue, those seen before excepted. -/
structure Pushed (key : ι → κ) (keys : κ → Prop) (work work' : Worklist ι κ σ) : Prop where
  seen : ∀ k, k ∈ work'.seen ↔ k ∈ work.seen ∨ keys k
  queue : ∃ new, work'.queue = work.queue ++ new ∧ (new.map key).Nodup ∧
    ∀ k, k ∈ new.map key ↔ keys k ∧ k ∉ work.seen

namespace Pushed

omit [DecidableEq κ] in
theorem none (hqueue : work'.queue = work.queue) (hseen : work'.seen = work.seen)
    (hkeys : ∀ k, ¬ keys k) : Pushed key keys work work' where
  seen k := by simp [hseen, hkeys k]
  queue := ⟨[], by simp [hqueue], by simp, by simp [hkeys]⟩

theorem push (item : ι) : Pushed key (· = key item) work (work.push (key item) item) := by
  rw [Worklist.push]
  split
  case isTrue hseen =>
    constructor
    · intro k
      exact ⟨Or.inl, fun h => h.elim id fun heq => heq ▸ hseen⟩
    · exact ⟨[], by simp, by simp, by simp [hseen]⟩
  case isFalse hseen =>
    constructor
    · intro k
      rw [List.mem_cons, or_comm]
    · refine ⟨[item], rfl, by simp, ?_⟩
      intro k
      rw [List.map_singleton, List.mem_singleton]
      exact ⟨fun heq => ⟨heq, heq ▸ hseen⟩, And.left⟩

omit [DecidableEq κ] in
theorem trans (hfirst : Pushed key keys work work') (hsecond : Pushed key keys' work' work'') :
    Pushed key (fun k => keys k ∨ keys' k) work work'' := by
  obtain ⟨new, hnew, hnodup, hmem⟩ := hfirst.queue
  obtain ⟨new', hnew', hnodup', hmem'⟩ := hsecond.queue
  constructor
  · intro k
    rw [hsecond.seen, hfirst.seen, or_assoc]
  · refine ⟨new ++ new', by rw [hnew', hnew, List.append_assoc], ?_, ?_⟩
    · rw [List.map_append, List.nodup_append]
      refine ⟨hnodup, hnodup', ?_⟩
      rintro k hk k' hk' rfl
      have hunseen := ((hmem' k).mp hk').2
      rw [hfirst.seen] at hunseen
      exact hunseen (Or.inr ((hmem k).mp hk).1)
    · intro k
      rw [List.map_append, List.mem_append, hmem, hmem', hfirst.seen]
      tauto

omit [DecidableEq κ] in
theorem congr (hpushed : Pushed key keys work work') (hkeys : ∀ k, keys k ↔ keys' k) :
    Pushed key keys' work work' := by
  have heq : keys = keys' := funext fun k => propext (hkeys k)
  rwa [← heq]

end Pushed

/-! ## Termination -/

/-- How many rounds are left at most, if all keys come from `all`. -/
def remaining (all : Finset κ) (work : Worklist ι κ σ) : ℕ :=
  work.queue.length + (all.filter (· ∉ work.seen)).card

theorem remaining_le_length (all : List κ) (work : Worklist ι κ σ) :
    remaining all.toFinset work ≤ work.queue.length + all.length :=
  Nat.add_le_add_left ((Finset.card_filter_le _ _).trans (List.toFinset_card_le _)) _

theorem Pushed.remaining_le {all : Finset κ} (hpushed : Pushed key keys work work')
    (hall : ∀ k, keys k → k ∈ all) : remaining all work' ≤ remaining all work := by
  obtain ⟨new, hnew, hnodup, hmem⟩ := hpushed.queue
  have hdisjoint : Disjoint (all.filter (· ∉ work'.seen)) (new.map key).toFinset := by
    rw [Finset.disjoint_right]
    intro k hk
    rw [List.mem_toFinset, hmem] at hk
    simp [hpushed.seen, hk.1]
  have hsubset : all.filter (· ∉ work'.seen) ∪ (new.map key).toFinset ⊆
      all.filter (· ∉ work.seen) := by
    intro k hk
    rw [Finset.mem_union, Finset.mem_filter, List.mem_toFinset, hmem, hpushed.seen] at hk
    rw [Finset.mem_filter]
    rcases hk with ⟨hmemAll, hunseen⟩ | ⟨hkey, hunseen⟩
    · exact ⟨hmemAll, fun h => hunseen (Or.inl h)⟩
    · exact ⟨hall k hkey, hunseen⟩
  have hcard := Finset.card_le_card hsubset
  rw [Finset.card_union_of_disjoint hdisjoint, List.toFinset_card_of_nodup hnodup,
    List.length_map] at hcard
  rw [remaining, remaining, hnew, List.length_append]
  omega

/-- What every round keeps holds at the end, and the queue is empty. -/
theorem run_ok (Inv : Worklist ι κ σ → Prop)
    {step : ι → Worklist ι κ σ → Except ε (Worklist ι κ σ)} {all : Finset κ}
    (hstep : ∀ {work work' item queue}, Inv work → work.queue = item :: queue →
      step item { work with queue } = .ok work' →
        Inv work' ∧ remaining all work' ≤ remaining all { work with queue })
    {fuel : ℕ} (hinv : Inv work) (hfuel : remaining all work ≤ fuel)
    (hrun : run step fuel work = .ok work') : Inv work' ∧ work'.queue = [] := by
  induction fuel generalizing work with
  | zero =>
      cases hrun
      exact ⟨hinv, List.eq_nil_of_length_eq_zero (by rw [remaining] at hfuel; omega)⟩
  | succ fuel ih =>
      rw [run] at hrun
      split at hrun
      case h_1 hqueue =>
        cases hrun
        exact ⟨hinv, hqueue⟩
      case h_2 item queue hqueue =>
        cases hnext : step item { work with queue } with
        | error e => simp [hnext, bind, Except.bind] at hrun
        | ok next =>
            obtain ⟨hinv', hle⟩ := hstep hinv hqueue hnext
            have hpop : remaining all { work with queue } + 1 = remaining all work := by
              simp only [remaining, hqueue, List.length_cons]
              omega
            rw [hnext] at hrun
            exact ih hinv' (by omega) hrun

/-! ## What is reached -/

/-- A key that was there at the start, or that is next to one that is reached. -/
inductive Reached (start : κ → Prop) (next : κ → κ → Prop) : κ → Prop where
  | start {k : κ} : start k → Reached start next k
  | next {k k' : κ} : Reached start next k → next k k' → Reached start next k'

omit [DecidableEq κ] in
/-- What was at the start or seen, and is not in the queue any more, is done. -/
def Finishing (key : ι → κ) (start : κ → Prop) (done : κ → Worklist ι κ σ → Prop)
    (work : Worklist ι κ σ) : Prop :=
  ∀ k, start k ∨ k ∈ work.seen → (∃ item ∈ work.queue, key item = k) ∨ done k work

section Search

variable {start : κ → Prop} {next : κ → κ → Prop} {done : κ → Worklist ι κ σ → Prop}
  {item : ι} {queue : List ι}

omit [DecidableEq κ] in
theorem Finishing.step (hfinishing : Finishing key start done work)
    (hqueue : work.queue = item :: queue) (hpushed : Pushed key keys { work with queue } work')
    (hdone : ∀ k, done k work → done k work') (hitem : done (key item) work') :
    Finishing key start done work' := by
  obtain ⟨new, hnew, _, hmem⟩ := hpushed.queue
  intro k hk
  by_cases hold : start k ∨ k ∈ work.seen
  · rcases hfinishing k hold with ⟨other, hother, rfl⟩ | hk
    · rcases List.mem_cons.mp (hqueue ▸ hother) with rfl | hother
      · exact Or.inr hitem
      · exact Or.inl ⟨other, by simp [hnew, hother], rfl⟩
    · exact Or.inr (hdone k hk)
  · -- The key is new, so its item is in the queue.
    rw [not_or] at hold
    have hkey : keys k := ((hpushed.seen k).mp (hk.resolve_left hold.1)).resolve_left hold.2
    obtain ⟨other, hother, rfl⟩ := List.mem_map.mp ((hmem k).mpr ⟨hkey, hold.2⟩)
    exact Or.inl ⟨other, by simp [hnew, hother], rfl⟩

omit [DecidableEq κ] in
/-- While the worklist runs: what is in the queue or was seen is reached, and of what was
at the start or seen, what is not in the queue has its next keys seen. -/
structure Searching (key : ι → κ) (start : κ → Prop) (next : κ → κ → Prop)
    (work : Worklist ι κ σ) : Prop where
  queue : ∀ item ∈ work.queue, Reached start next (key item)
  seen : ∀ k ∈ work.seen, Reached start next k
  closed : Finishing key start (fun k work => ∀ k', next k k' → k' ∈ work.seen) work

namespace Searching

omit [DecidableEq κ] in
theorem step (hsearching : Searching key start next work) (hqueue : work.queue = item :: queue)
    (hpushed : Pushed key (next (key item)) { work with queue } work') :
    Searching key start next work' := by
  obtain ⟨new, hnew, _, hmem⟩ := hpushed.queue
  have hitem : Reached start next (key item) := hsearching.queue item (by simp [hqueue])
  have hseen := hpushed.seen
  constructor
  · intro other hother
    rw [hnew, List.mem_append] at hother
    rcases hother with hother | hother
    · exact hsearching.queue other (by simp [hqueue, hother])
    · exact .next hitem ((hmem _).mp (List.mem_map_of_mem hother)).1
  · intro k hk
    rcases (hseen k).mp hk with hk | hk
    · exact hsearching.seen k hk
    · exact .next hitem hk
  · apply hsearching.closed.step hqueue hpushed
    · exact fun k hclosed k' hnext => (hseen k').mpr (Or.inl (hclosed k' hnext))
    · exact fun k' hnext => (hseen k').mpr (Or.inr hnext)

omit [DecidableEq κ] in
/-- At the end, exactly the reached keys were seen or there at the start. -/
theorem reached_iff (hsearching : Searching key start next work) (hqueue : work.queue = [])
    {k : κ} : Reached start next k ↔ start k ∨ k ∈ work.seen := by
  constructor
  · intro hreached
    induction hreached with
    | start hstart => exact Or.inl hstart
    | next _ hnext ih =>
        rcases hsearching.closed _ ih with ⟨item, hitem, _⟩ | hclosed
        · simp [hqueue] at hitem
        · exact Or.inr (hclosed _ hnext)
  · intro hk
    exact hk.elim .start (hsearching.seen k)

end Searching

omit [DecidableEq κ] in
/-- At the end, all that is reached is done. -/
theorem Finishing.done_of_reached (hfinishing : Finishing key start done work)
    (hsearching : Searching key start next work) (hqueue : work.queue = []) {k : κ}
    (hreached : Reached start next k) : done k work := by
  rcases hfinishing k ((hsearching.reached_iff hqueue).mp hreached) with ⟨item, hitem, _⟩ | hdone
  · simp [hqueue] at hitem
  · exact hdone

end Search

end Worklist

end Uv.Core
