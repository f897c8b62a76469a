/-
  SourceAudit/Reachable.lean
  ==========================
  **What can be reached along edges.**

  A search keeps the nodes it has visited and a queue of those still to visit.  A
  visit either takes one node with edges off the list of unvisited ones or shortens
  the queue, so the search ends whatever cycles there are.
-/

namespace SourceAudit.Reachable

variable {α : Type} [DecidableEq α]

/-- The nodes with edges that are not visited yet. -/
def unvisited (edges : List (α × List α)) (visited : List α) : List (α × List α) :=
  edges.filter fun e => !visited.contains e.1

theorem unvisited_length_le (edges : List (α × List α)) (visited : List α) (node : α) :
    (unvisited edges (node :: visited)).length ≤ (unvisited edges visited).length := by
  unfold unvisited
  induction edges with
  | nil => simp
  | cons e rest ih =>
    simp only [List.filter_cons]
    split <;> split <;> simp_all
    omega

theorem unvisited_length_lt (edges : List (α × List α)) (visited : List α) (node : α)
    (fresh : node ∉ visited) (found : (edges.lookup node).isSome) :
    (unvisited edges (node :: visited)).length < (unvisited edges visited).length := by
  unfold unvisited
  induction edges with
  | nil => simp at found
  | cons e rest ih =>
    obtain ⟨key, targets⟩ := e
    by_cases same : node = key
    · subst same
      have le := unvisited_length_le rest visited node
      unfold unvisited at le
      simp only [List.filter_cons]
      simp [fresh]
      simpa using Nat.lt_succ_of_le le
    · have apart : (node == key) = false := by simp [same]
      rw [List.lookup_cons, apart] at found
      have ih := ih found
      have other : ¬ key = node := fun h => same h.symm
      simp only [List.filter_cons]
      by_cases seen : key ∈ visited <;> simp_all

/-- Visits the nodes of a queue, first node first, and those their edges lead to.
    The nodes visited come out, last first. -/
def visit (edges : List (α × List α)) (queue visited : List α) : List α :=
  match queue with
  | [] => visited
  | node :: rest =>
    if _fresh : node ∈ visited then visit edges rest visited
    else
      match _found : edges.lookup node with
      | none => visit edges rest (node :: visited)
      | some targets =>
        visit edges (rest ++ targets.filter fun t => !visited.contains t) (node :: visited)
termination_by ((unvisited edges visited).length, queue.length)
decreasing_by
  · simp_wf
    exact Prod.Lex.right _ (Nat.lt_succ_self _)
  · simp_wf
    rcases Nat.lt_or_eq_of_le (unvisited_length_le edges visited node) with lt | eq
    · exact Prod.Lex.left _ _ lt
    · rw [eq]; exact Prod.Lex.right _ (Nat.lt_succ_self _)
  · simp_wf
    exact Prod.Lex.left _ _ (unvisited_length_lt edges visited node _fresh (by simp [_found]))

/-- The nodes that edges lead to from some starting nodes, these included. -/
def fromStarts (starts : List α) (edges : List (α × List α)) : List α := visit edges starts []

end SourceAudit.Reachable
