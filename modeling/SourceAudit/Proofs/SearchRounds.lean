/-
  SourceAudit/Proofs/SearchRounds.lean
  ====================================
  **A search ends, whatever cycles there are.**

  A search goes in rounds.  Each takes the first node of the queue: a visited one is passed
  over, any other is visited and the targets of its edges are queued, as far as they are not
  visited (`Round`).  The queue may grow in a round and may hold a node many times.

  What ends the search is that a node hands out its targets once: the nodes in the queue and
  the targets not handed out yet, counted together, become fewer in every round
  (`Round.pending_lt`).  So no run is longer than the starts and all targets together, and the
  run that empties the queue is the one `Reachable.visit` computes (`rounds_visit`).

  * `fromStarts_ends`: the search ends after so many rounds, and what it has visited then are
    the nodes that chains of edges lead to, each once.
-/
import SourceAudit.Proofs.Reachability

namespace SourceAudit.Reachable

open Relation (ReflTransGen)

variable {α : Type}

/-! ### Targets -/

/-- How many targets some entries have together. -/
def targetCount : List (α × List α) → Nat
  | [] => 0
  | (_, targets) :: rest => targets.length + targetCount rest

theorem targetCount_cons (node : α) (targets : List α) (rest : List (α × List α)) :
    targetCount ((node, targets) :: rest) = targets.length + targetCount rest := rfl

theorem targetCount_append (front back : List (α × List α)) :
    targetCount (front ++ back) = targetCount front + targetCount back := by
  induction front with
  | nil => rw [List.nil_append, targetCount, Nat.zero_add]
  | cons e rest ih =>
    obtain ⟨node, targets⟩ := e
    rw [List.cons_append, targetCount_cons, targetCount_cons, ih, Nat.add_assoc]

theorem targetCount_filter_le (edges : List (α × List α)) (keep : α × List α → Bool) :
    targetCount (edges.filter keep) ≤ targetCount edges := by
  induction edges with
  | nil => exact Nat.le_refl _
  | cons e rest ih =>
    obtain ⟨node, targets⟩ := e
    rw [List.filter_cons]
    split
    · rw [targetCount_cons, targetCount_cons]
      omega
    · rw [targetCount_cons]
      omega

/-! ### Rounds -/

/-- A state of a search. -/
structure Search (α : Type) where
  queue : List α
  visited : List α

variable [DecidableEq α]

/-- One round of a search. -/
inductive Round (edges : List (α × List α)) : Search α → Search α → Prop
  | seen {node : α} {queue visited : List α} (hseen : node ∈ visited) :
      Round edges ⟨node :: queue, visited⟩ ⟨queue, visited⟩
  | leaf {node : α} {queue visited : List α} (hfresh : node ∉ visited)
      (hnone : edges.lookup node = none) :
      Round edges ⟨node :: queue, visited⟩ ⟨queue, node :: visited⟩
  | expand {node : α} {queue visited targets : List α} (hfresh : node ∉ visited)
      (hfound : edges.lookup node = some targets) :
      Round edges ⟨node :: queue, visited⟩
        ⟨queue ++ targets.filter fun t => !visited.contains t, node :: visited⟩

/-- A number of rounds, one after the other. -/
inductive Rounds (edges : List (α × List α)) : Nat → Search α → Search α → Prop
  | none (s : Search α) : Rounds edges 0 s s
  | more {n : Nat} {s t u : Search α} (hfirst : Round edges s t) (hrest : Rounds edges n t u) :
      Rounds edges (n + 1) s u

variable {edges : List (α × List α)} {queue visited : List α}

/-- A round does not change what the search comes to. -/
theorem Round.visit_eq {s t : Search α} (h : Round edges s t) :
    visit edges s.queue s.visited = visit edges t.queue t.visited := by
  cases h with
  | seen hseen =>
    rw [visit]
    simp [hseen]
  | leaf hfresh hnone =>
    rw [visit]
    simp only [hfresh, dif_neg, not_false_eq_true]
    split
    · rfl
    · next targets hfound =>
      rw [hnone] at hfound
      cases hfound
  | @expand node queue visited targets hfresh hfound =>
    rw [visit]
    simp only [hfresh, dif_neg, not_false_eq_true]
    split
    · next hnone =>
      rw [hfound] at hnone
      cases hnone
    · next found hagain =>
      obtain rfl : targets = found := Option.some.inj (hfound.symm.trans hagain)
      rfl

theorem Rounds.visit_eq {n : Nat} {s t : Search α} (h : Rounds edges n s t) :
    visit edges s.queue s.visited = visit edges t.queue t.visited := by
  induction h with
  | none s => rfl
  | more hfirst hrest ih => exact hfirst.visit_eq.trans ih

/-- A search goes on as long as there are nodes in its queue. -/
theorem exists_round (edges : List (α × List α)) (node : α) (queue visited : List α) :
    ∃ t, Round edges ⟨node :: queue, visited⟩ t := by
  by_cases hseen : node ∈ visited
  · exact ⟨_, .seen hseen⟩
  · cases hfound : edges.lookup node with
    | none => exact ⟨_, .leaf hseen hfound⟩
    | some targets => exact ⟨_, .expand hseen hfound⟩

/-- Visiting the queue is a run of rounds that empties it. -/
theorem rounds_visit (edges : List (α × List α)) (queue visited : List α) :
    ∃ n, Rounds edges n ⟨queue, visited⟩ ⟨[], visit edges queue visited⟩ := by
  fun_induction visit edges queue visited with
  | case1 visited => exact ⟨0, .none _⟩
  | case2 visited node rest hseen ih =>
    obtain ⟨n, hrest⟩ := ih
    exact ⟨n + 1, .more (.seen hseen) hrest⟩
  | case3 visited node rest hfresh hnone ih =>
    obtain ⟨n, hrest⟩ := ih
    exact ⟨n + 1, .more (.leaf hfresh hnone) hrest⟩
  | case4 visited node rest hfresh targets hfound ih =>
    obtain ⟨n, hrest⟩ := ih
    exact ⟨n + 1, .more (.expand hfresh hfound) hrest⟩

/-! ### What is left to do -/

theorem unvisited_cons (edges : List (α × List α)) (visited : List α) (node : α) :
    unvisited edges (node :: visited) =
      (unvisited edges visited).filter fun e => decide (e.1 ≠ node) := by
  rw [unvisited, unvisited, List.filter_filter]
  apply List.filter_congr
  intro e _
  by_cases hsame : e.1 = node
  · simp [hsame]
  · simp [hsame]

/-- Visiting a node takes its targets off those that are still to be handed out. -/
theorem targetCount_unvisited_cons {node : α} {targets : List α} (hfresh : node ∉ visited)
    (hfound : edges.lookup node = some targets) :
    targets.length + targetCount (unvisited edges (node :: visited)) ≤
      targetCount (unvisited edges visited) := by
  obtain ⟨front, back, rfl, -⟩ := List.lookup_eq_some_iff.mp hfound
  rw [unvisited_cons, unvisited, List.filter_append, List.filter_cons_of_pos (by simpa using hfresh),
    List.filter_append, List.filter_cons_of_neg (by simp), targetCount_append, targetCount_append,
    targetCount_cons]
  have hfront := targetCount_filter_le (front.filter fun e => !visited.contains e.1)
    fun e => decide (e.1 ≠ node)
  have hback := targetCount_filter_le (back.filter fun e => !visited.contains e.1)
    fun e => decide (e.1 ≠ node)
  omega

/-- The nodes in the queue and the targets not handed out yet. -/
def pending (edges : List (α × List α)) (s : Search α) : Nat :=
  s.queue.length + targetCount (unvisited edges s.visited)

theorem Round.pending_lt {s t : Search α} (h : Round edges s t) :
    pending edges t < pending edges s := by
  cases h with
  | @seen node queue visited hseen =>
    simp only [pending, List.length_cons]
    omega
  | @leaf node queue visited hfresh hnone =>
    have hfewer := targetCount_filter_le (unvisited edges visited) fun e => decide (e.1 ≠ node)
    rw [← unvisited_cons] at hfewer
    simp only [pending, List.length_cons]
    omega
  | @expand node queue visited targets hfresh hfound =>
    -- of the targets handed out, those that are visited do not even enter the queue
    have hfewer := targetCount_unvisited_cons hfresh hfound
    have hqueued := List.length_filter_le (fun t => !visited.contains t) targets
    simp only [pending, List.length_cons, List.length_append]
    omega

theorem Rounds.length_le {n : Nat} {s t : Search α} (h : Rounds edges n s t) :
    n + pending edges t ≤ pending edges s := by
  induction h with
  | none s => omega
  | more hfirst hrest ih =>
    have hless := hfirst.pending_lt
    omega

theorem pending_start (edges : List (α × List α)) (starts : List α) :
    pending edges ⟨starts, []⟩ = starts.length + targetCount edges := by
  have hall : unvisited edges [] = edges := List.filter_eq_self.mpr fun e _ => rfl
  rw [pending, hall]

/-! ### The whole search -/

theorem visit_nodup (hvisited : visited.Nodup) : (visit edges queue visited).Nodup := by
  fun_induction visit edges queue visited with
  | case1 visited => exact hvisited
  | case2 visited node rest hseen ih => exact ih hvisited
  | case3 visited node rest hfresh hnone ih => exact ih (List.nodup_cons.mpr ⟨hfresh, hvisited⟩)
  | case4 visited node rest hfresh targets hfound ih =>
    exact ih (List.nodup_cons.mpr ⟨hfresh, hvisited⟩)

/-- **A search ends with what can be reached.**  No run of its rounds is longer than the starts
    and the targets of all edges together, and a run can go on unless its queue is empty and
    the nodes visited are those of `fromStarts`.  These are, each once, the nodes that a chain
    of edges, or none, leads to from a start. -/
theorem fromStarts_ends (starts : List α) (edges : List (α × List α)) :
    (∃ n, Rounds edges n ⟨starts, []⟩ ⟨[], fromStarts starts edges⟩) ∧
      (∀ n s, Rounds edges n ⟨starts, []⟩ s →
        n ≤ starts.length + targetCount edges ∧
          ((∃ t, Round edges s t) ∨ s = ⟨[], fromStarts starts edges⟩)) ∧
      (fromStarts starts edges).Nodup ∧
      ∀ node, node ∈ fromStarts starts edges ↔
        ∃ start ∈ starts, ReflTransGen (Edge edges) start node := by
  refine ⟨rounds_visit edges starts [], ?_, visit_nodup List.nodup_nil, ?_⟩
  · intro n s hrounds
    obtain ⟨queue, visited⟩ := s
    constructor
    · have hlength := hrounds.length_le
      rw [pending_start] at hlength
      omega
    · cases queue with
      | nil =>
        right
        have hend : visit edges [] visited = visited := by rw [visit]
        rw [fromStarts, ← hend]
        exact congrArg (Search.mk []) hrounds.visit_eq.symm
      | cons node rest =>
        left
        exact exists_round edges node rest visited
  · intro node
    exact mem_fromStarts_iff

/-- Two files that lead to each other and to themselves, and to one without edges. -/
def entwined : List (String × List String) :=
  [("main", ["util", "util", "leaf"]), ("util", ["util", "main"])]

theorem fromStarts_ends_entwined :
    (∃ n ≤ 7, Rounds entwined n ⟨["main", "main"], []⟩ ⟨[], ["leaf", "util", "main"]⟩) ∧
      ∃ start ∈ ["main", "main"], ReflTransGen (Edge entwined) start "leaf" := by
  have hvisited : fromStarts ["main", "main"] entwined = ["leaf", "util", "main"] := by
    simp [fromStarts, visit, entwined, List.lookup_cons]
  obtain ⟨⟨n, hrun⟩, hbound, -, hreached⟩ := fromStarts_ends ["main", "main"] entwined
  refine ⟨⟨n, (hbound n _ hrun).1, hvisited ▸ hrun⟩, (hreached "leaf").mp ?_⟩
  rw [hvisited]
  decide

end SourceAudit.Reachable
