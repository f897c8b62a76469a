/-
  SourceAudit/Proofs/Reachability.lean
  ====================================
  **A search visits exactly what chains of edges lead to.**

  `Reachable.fromStarts` keeps nodes visited and a queue.  Two facts about every
  state of it decide what comes out.  Whatever is visited or queued is led to from a
  start, so nothing else comes out (`visit_sound`).  And an edge of a visited node
  leads to a visited or a queued one (`Explored`), so that nothing is missing once
  the queue is empty (`visit_closed`).  Cycles and repeated edges need no care: the
  two facts are about sets of nodes only.

  * `mem_fromStarts_iff`: the nodes of a search are those that chains lead to.
-/
import Mathlib.Logic.Relation
import SourceAudit.Reachable

namespace SourceAudit.Reachable

open Relation (ReflTransGen)

variable {α : Type} [DecidableEq α] {edges : List (α × List α)} {queue visited : List α}

/-- An edge leads from `a` to `b`. -/
def Edge (edges : List (α × List α)) (a b : α) : Prop :=
  ∃ targets, edges.lookup a = some targets ∧ b ∈ targets

/-- The edges of visited nodes lead to visited or queued ones. -/
def Explored (edges : List (α × List α)) (queue visited : List α) : Prop :=
  ∀ a ∈ visited, ∀ b, Edge edges a b → b ∈ visited ∨ b ∈ queue

/-! ### What is visited stays, what is queued comes -/

theorem mem_visit_of_visited {node : α} (hmem : node ∈ visited) :
    node ∈ visit edges queue visited := by
  fun_induction visit edges queue visited with
  | case1 => exact hmem
  | case2 visited head rest hseen ih => exact ih hmem
  | case3 visited head rest hfresh hfound ih => exact ih (List.mem_cons_of_mem _ hmem)
  | case4 visited head rest hfresh targets hfound ih => exact ih (List.mem_cons_of_mem _ hmem)

theorem mem_visit_of_queued {node : α} (hmem : node ∈ queue) :
    node ∈ visit edges queue visited := by
  fun_induction visit edges queue visited with
  | case1 => simp at hmem
  | case2 visited head rest hseen ih =>
    rcases List.mem_cons.mp hmem with rfl | hrest
    · exact mem_visit_of_visited hseen
    · exact ih hrest
  | case3 visited head rest hfresh hfound ih =>
    rcases List.mem_cons.mp hmem with rfl | hrest
    · exact mem_visit_of_visited (List.mem_cons_self ..)
    · exact ih hrest
  | case4 visited head rest hfresh targets hfound ih =>
    rcases List.mem_cons.mp hmem with rfl | hrest
    · exact mem_visit_of_visited (List.mem_cons_self ..)
    · exact ih (List.mem_append_left _ hrest)

/-! ### Nothing else comes out -/

theorem visit_sound {node : α} (hmem : node ∈ visit edges queue visited) :
    node ∈ visited ∨ ∃ start ∈ queue, ReflTransGen (Edge edges) start node := by
  fun_induction visit edges queue visited with
  | case1 => exact .inl hmem
  | case2 visited head rest hseen ih =>
    rcases ih hmem with hold | ⟨start, hstart, hchain⟩
    · exact .inl hold
    · exact .inr ⟨start, List.mem_cons_of_mem _ hstart, hchain⟩
  | case3 visited head rest hfresh hfound ih =>
    rcases ih hmem with hold | ⟨start, hstart, hchain⟩
    · rcases List.mem_cons.mp hold with rfl | hold
      · exact .inr ⟨node, List.mem_cons_self .., .refl⟩
      · exact .inl hold
    · exact .inr ⟨start, List.mem_cons_of_mem _ hstart, hchain⟩
  | case4 visited head rest hfresh targets hfound ih =>
    rcases ih hmem with hold | ⟨start, hstart, hchain⟩
    · rcases List.mem_cons.mp hold with rfl | hold
      · exact .inr ⟨node, List.mem_cons_self .., .refl⟩
      · exact .inl hold
    · rcases List.mem_append.mp hstart with hrest | htarget
      · exact .inr ⟨start, List.mem_cons_of_mem _ hrest, hchain⟩
      · -- a target of the node just visited: its chain starts one edge earlier
        have hedge : Edge edges head start := ⟨targets, hfound, (List.mem_filter.mp htarget).1⟩
        exact .inr ⟨head, List.mem_cons_self .., .head hedge hchain⟩

/-! ### Nothing is missing -/

theorem Explored.skip {node : α} (hexplored : Explored edges (node :: queue) visited)
    (hseen : node ∈ visited) : Explored edges queue visited := by
  intro a ha b hedge
  rcases hexplored a ha b hedge with hvisited | hqueued
  · exact .inl hvisited
  · rcases List.mem_cons.mp hqueued with rfl | hrest
    · exact .inl hseen
    · exact .inr hrest

theorem Explored.leaf {node : α} (hexplored : Explored edges (node :: queue) visited)
    (hfound : edges.lookup node = none) : Explored edges queue (node :: visited) := by
  intro a ha b hedge
  rcases List.mem_cons.mp ha with rfl | hold
  · obtain ⟨targets, htargets, -⟩ := hedge
    rw [hfound] at htargets
    cases htargets
  · rcases hexplored a hold b hedge with hvisited | hqueued
    · exact .inl (List.mem_cons_of_mem _ hvisited)
    · rcases List.mem_cons.mp hqueued with rfl | hrest
      · exact .inl (List.mem_cons_self ..)
      · exact .inr hrest

theorem Explored.expand {node : α} {targets : List α}
    (hexplored : Explored edges (node :: queue) visited)
    (hfound : edges.lookup node = some targets) :
    Explored edges (queue ++ targets.filter fun t => !visited.contains t) (node :: visited) := by
  intro a ha b hedge
  rcases List.mem_cons.mp ha with rfl | hold
  · obtain ⟨found, hlookup, hb⟩ := hedge
    obtain rfl : targets = found := Option.some.inj (hfound.symm.trans hlookup)
    by_cases hvisited : b ∈ visited
    · exact .inl (List.mem_cons_of_mem _ hvisited)
    · exact .inr (List.mem_append_right _ (List.mem_filter.mpr ⟨hb, by simp [hvisited]⟩))
  · rcases hexplored a hold b hedge with hvisited | hqueued
    · exact .inl (List.mem_cons_of_mem _ hvisited)
    · rcases List.mem_cons.mp hqueued with rfl | hrest
      · exact .inl (List.mem_cons_self ..)
      · exact .inr (List.mem_append_left _ hrest)

theorem visit_closed (hexplored : Explored edges queue visited) {a b : α}
    (hmem : a ∈ visit edges queue visited) (hedge : Edge edges a b) :
    b ∈ visit edges queue visited := by
  fun_induction visit edges queue visited with
  | case1 visited =>
    rcases hexplored a hmem b hedge with hvisited | hqueued
    · exact hvisited
    · simp at hqueued
  | case2 visited node rest hseen ih => exact ih (hexplored.skip hseen) hmem
  | case3 visited node rest hfresh hfound ih => exact ih (hexplored.leaf hfound) hmem
  | case4 visited node rest hfresh targets hfound ih => exact ih (hexplored.expand hfound) hmem

/-! ### The whole search -/

theorem mem_fromStarts_iff {starts : List α} {node : α} :
    node ∈ fromStarts starts edges ↔ ∃ start ∈ starts, ReflTransGen (Edge edges) start node := by
  constructor
  · intro hmem
    rcases visit_sound hmem with hvisited | hchain
    · simp at hvisited
    · exact hchain
  · rintro ⟨start, hstart, hchain⟩
    have hexplored : Explored edges starts [] := fun a ha => by simp at ha
    induction hchain with
    | refl => exact mem_visit_of_queued hstart
    | tail _ hedge ih => exact visit_closed hexplored ih hedge

end SourceAudit.Reachable
