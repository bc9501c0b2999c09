import WordAutomata.Proofs.Builder

namespace WordAutomata

/-- The words with any of some letters at each place. They come in ascending order if the letters of each place do. -/
def spread : List (List UInt8) → List Word
  | [] => [[]]
  | l :: ls => l.flatMap fun c => (spread ls).map (c :: ·)

theorem cons_mem_spread {c : UInt8} {w : Word} {l : List UInt8} {ls : List (List UInt8)} :
    c :: w ∈ spread (l :: ls) ↔ c ∈ l ∧ w ∈ spread ls := by
  simp [spread, List.mem_flatMap]

theorem length_spread (ls : List (List UInt8)) : (spread ls).length = (ls.map List.length).prod := by
  induction ls with
  | nil => rfl
  | cons l ls ih => simp [spread, List.length_flatMap, ih]

theorem length_of_mem_spread {w : Word} {ls : List (List UInt8)} (h : w ∈ spread ls) : w.length = ls.length := by
  induction ls generalizing w with
  | nil => simp [List.mem_singleton.1 h]
  | cons l ls ih =>
    cases w with
    | nil => simp [spread] at h
    | cons c w => rw [List.length_cons, List.length_cons, ih (cons_mem_spread.1 h).2]

/-- The first word has the first letter at each place. -/
theorem head?_spread {c : UInt8} {ls : List (List UInt8)} (h : ∀ l ∈ ls, l.head? = some c) :
    (spread ls).head? = some (List.replicate ls.length c) := by
  induction ls with
  | nil => rfl
  | cons l ls ih =>
    obtain ⟨hl, hls⟩ := List.forall_mem_cons.1 h
    obtain ⟨l, rfl⟩ := List.head?_eq_some_iff.1 hl
    simp [spread, ih hls, List.replicate_succ]

theorem exists_mem_spread {ls : List (List UInt8)} (h : ∀ l ∈ ls, l ≠ []) : ∃ w, w ∈ spread ls := by
  induction ls with
  | nil => exact ⟨[], List.mem_singleton_self []⟩
  | cons l ls ih =>
    obtain ⟨hl, hls⟩ := List.forall_mem_cons.1 h
    obtain ⟨c, hc⟩ := List.exists_mem_of_ne_nil l hl
    obtain ⟨w, hw⟩ := ih hls
    exact ⟨c :: w, cons_mem_spread.2 ⟨hc, hw⟩⟩

theorem append_mem_spread {u v : Word} {ls : List (List UInt8)} :
    u ++ v ∈ spread ls ↔ u ∈ spread (ls.take u.length) ∧ v ∈ spread (ls.drop u.length) := by
  induction u generalizing ls with
  | nil => simp [spread]
  | cons c u ih =>
    cases ls with
    | nil => simp [spread]
    | cons l ls =>
      simp only [List.cons_append, List.length_cons, List.take_succ_cons, List.drop_succ_cons, cons_mem_spread, ih, and_assoc]

theorem ascending_spread {ls : List (List UInt8)} (h : ∀ l ∈ ls, l.Pairwise (· < ·)) : Ascending (spread ls) := by
  induction ls with
  | nil => exact List.pairwise_singleton _ _
  | cons l ls ih =>
    obtain ⟨hl, hls⟩ := List.forall_mem_cons.1 h
    refine List.pairwise_flatMap.2 ⟨?_, ?_⟩
    · intro c _
      exact List.pairwise_map.2 ((ih hls).imp fun h => List.Lex.cons h)
    · refine hl.imp fun hlt v hv w hw => ?_
      obtain ⟨v, -, rfl⟩ := List.mem_map.1 hv
      obtain ⟨w, -, rfl⟩ := List.mem_map.1 hw
      exact List.Lex.rel hlt

/-- What completes a beginning depends on its length alone. -/
theorem residual_spread {ls : List (List UInt8)} {u v : Word} (h : u ++ v ∈ spread ls) :
    residual (spread ls) u = {w | w ≠ [] ∧ w ∈ spread (ls.drop u.length)} := by
  ext w
  refine and_congr_right fun _ => ?_
  rw [append_mem_spread]
  exact and_iff_right (append_mem_spread.1 h).1

/-- The letters of each place. -/
def letterPlaces (ls : List (List UInt8)) : List (Nat × UInt8) := ls.zipIdx.flatMap fun x => x.1.map (x.2, ·)

theorem length_letterPlaces (ls : List (List UInt8)) : (letterPlaces ls).length = (ls.map List.length).sum := by
  have hfst : ls.zipIdx.map (fun x => x.1.length) = (ls.zipIdx.map Prod.fst).map List.length := by
    rw [List.map_map]
    rfl
  simp [letterPlaces, List.length_flatMap, hfst]

theorem neededArcs_spread_subset (ls : List (List UInt8)) : neededArcs (spread ls) ⊆
    (fun x : Nat × UInt8 => ({w | w ≠ [] ∧ w ∈ spread (ls.drop x.1)}, x.2)) '' {x | x ∈ letterPlaces ls} := by
  intro ⟨R, c⟩ hneeded
  obtain ⟨u, rfl, v, -, hv⟩ := hneeded
  refine ⟨(u.length, c), ?_, Prod.ext (residual_spread hv).symm rfl⟩
  have hrest := (append_mem_spread.1 hv).2
  cases hdrop : ls.drop u.length with
  | nil => simp [hdrop, spread] at hrest
  | cons l rest =>
    rw [hdrop, cons_mem_spread] at hrest
    have hl : ls[u.length]? = some l := by rw [← List.head?_drop, hdrop, List.head?_cons]
    exact List.mem_flatMap.2 ⟨(l, u.length), List.mem_zipIdx_iff_getElem?.2 hl, List.mem_map.2 ⟨c, hrest.1, rfl⟩⟩

/-- One state for each place is enough. -/
theorem ncard_neededArcs_spread_le (ls : List (List UInt8)) :
    (neededArcs (spread ls)).ncard ≤ (ls.map List.length).sum := by
  have hfinite := List.finite_toSet (letterPlaces ls)
  calc (neededArcs (spread ls)).ncard
      ≤ _ := Set.ncard_le_ncard (neededArcs_spread_subset ls) (hfinite.image _)
    _ ≤ {x | x ∈ letterPlaces ls}.ncard := Set.ncard_image_le hfinite
    _ ≤ (letterPlaces ls).length := by
        rw [← List.coe_toFinset, Set.ncard_coe_finset]
        exact List.toFinset_card_le _
    _ = (ls.map List.length).sum := length_letterPlaces ls

/-- The words with any of some letters at each place are built if there is room for an arc with each of these. -/
theorem Builder.build_spread {ls : List (List UInt8)} (hls : ∀ l ∈ ls, l.Pairwise (· < ·)) (hne : ls ≠ [])
    (hfits : Record.size * (1 + (ls.map List.length).sum) < 2 ^ 32) :
    ∃ p root, Builder.build (spread ls) = .ok ⟨Pool.toBytes p root⟩ ∧ Builder.Finished (spread ls) p root := by
  have hnonempty : ∀ w ∈ spread ls, w ≠ [] := by
    intro w hw
    rw [← List.length_pos_iff, length_of_mem_spread hw]
    exact List.length_pos_iff.2 hne
  refine (Builder.build_cases (ascending_spread hls) hnonempty).resolve_right ?_
  rintro ⟨-, hlarge⟩
  have hle := Nat.mul_le_mul_left Record.size (Nat.add_le_add_left (ncard_neededArcs_spread_le ls) 1)
  omega

end WordAutomata
