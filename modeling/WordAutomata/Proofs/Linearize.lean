import WordAutomata.Proofs.Walk
import WordAutomata.Write.Layout

namespace WordAutomata

open Std (TreeSet)

theorem nodup_eraseDups (states : List State) : states.eraseDups.Nodup := by
  induction hn : states.length using Nat.strongRecOn generalizing states with
  | ind n ih =>
    cases states with
    | nil => exact List.nodup_nil
    | cons s states =>
      have hle := List.length_filter_le (fun t => !t == s) states
      rw [List.length_cons] at hn
      rw [List.eraseDups_cons]
      refine List.nodup_cons.2 ⟨?_, ih _ (by omega) _ rfl⟩
      rw [List.mem_eraseDups, List.mem_filter]
      simp

namespace Graph

variable {G : Graph}

theorem linearize_ordered {moved : List State} (hmoved : ∀ s ∈ moved, G.Reachable s) :
    G.Ordered (G.linearize moved) := by
  have hfirst (s : State) (hs : s ∈ moved.eraseDups) : G.Reachable s := hmoved s (List.mem_eraseDups.1 hs)
  have hcontains (s : State) : (TreeSet.ofList moved.eraseDups).contains s ↔ s ∈ moved.eraseDups := by
    rw [TreeSet.contains_ofList, List.contains_iff_mem]
  -- The walk starts behind the states that have been moved, which count as met.
  have hstack : ∀ s ∈ G.root.toList ++ (moved.eraseDups.flatMap G.targets).reverse, G.Reachable s := by
    intro s hs
    rcases List.mem_append.1 hs with hs | hs
    · exact .root (Option.mem_toList.1 hs)
    · rw [List.mem_reverse, List.mem_flatMap] at hs
      obtain ⟨t, ht, hts⟩ := hs
      exact .step (hfirst t ht) hts
  have hnext (s : State) (hs : G.Reachable s) : (fun s => (.ok (G.targets s) : Read (List State))) s = .ok (G.targets s) ∧
      ∀ t ∈ G.targets s, G.Reachable t :=
    ⟨rfl, fun t ht => .step hs ht⟩
  obtain ⟨order, heq, ho⟩ := explore_explored hnext (TreeSet.ofList moved.eraseDups) _ hstack
  have hlinear : G.linearize moved = moved.eraseDups ++ order := by
    rw [linearize, heq]
  have hor (s : State) (hs : (TreeSet.ofList moved.eraseDups).contains s ∨ s ∈ order) :
      s ∈ moved.eraseDups ++ order := by
    rw [hcontains] at hs
    exact List.mem_append.2 hs
  rw [hlinear]
  constructor
  · refine List.nodup_append.2 ⟨nodup_eraseDups moved, ho.nodup, ?_⟩
    intro s hs t ht heq
    have hnot := (ho.sound t ht).2
    rw [hcontains, ← heq] at hnot
    exact hnot hs
  · intro s
    constructor
    · intro hs
      rcases List.mem_append.1 hs with hs | hs
      · exact hfirst s hs
      · exact (ho.sound s hs).1
    · intro hs
      refine mem_of_reachable ?_ ?_ hs
      · intro r hr
        exact hor r (ho.complete r (List.mem_append_left _ (Option.mem_toList.2 hr)))
      · intro t ht u hu
        rcases List.mem_append.1 ht with ht | ht
        · refine hor u (ho.complete u (List.mem_append_right _ ?_))
          exact List.mem_reverse.2 (List.mem_flatMap.2 ⟨t, ht, hu⟩)
        · exact hor u (ho.closed t ht u hu)

end Graph

end WordAutomata
