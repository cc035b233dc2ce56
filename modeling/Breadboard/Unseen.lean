namespace Breadboard

/-- Number of nodes that are not in a list. It bounds how often a search can still find a node that
it has not seen. -/
def unseen {α : Type} [DecidableEq α] (nodes seen : List α) : Nat :=
  (nodes.filter (· ∉ seen)).length

theorem unseen_cons_lt {α : Type} [DecidableEq α] {nodes seen : List α} {a : α} (hm : a ∈ nodes)
    (hn : a ∉ seen) : unseen nodes (a :: seen) < unseen nodes seen := by
  have split : nodes.filter (· ∉ a :: seen) = (nodes.filter (· ∉ seen)).filter (· != a) := by
    rw [List.filter_filter]
    congr 1
    funext x
    by_cases h1 : x = a <;> by_cases h2 : x ∈ seen <;> simp [h1, h2]
  rw [unseen, unseen, split, List.length_filter_lt_length_iff_exists]
  exact ⟨a, List.mem_filter.2 ⟨hm, decide_eq_true hn⟩, by simp⟩

end Breadboard
