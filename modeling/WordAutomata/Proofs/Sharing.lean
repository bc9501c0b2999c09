import WordAutomata.Proofs.Conversion
import WordAutomata.Proofs.Spread

namespace WordAutomata

/-- The words of a length over two letters, in ascending order. -/
def wordsOfLength : Nat → List Word
  | 0 => [[]]
  | n + 1 => (wordsOfLength n).map (97 :: ·) ++ (wordsOfLength n).map (98 :: ·)

theorem wordsOfLength_eq_spread (n : Nat) : wordsOfLength n = spread (List.replicate n [97, 98]) := by
  induction n with
  | zero => rfl
  | succ n ih => simp [wordsOfLength, spread, List.replicate_succ, ih]

theorem length_wordsOfLength (n : Nat) : (wordsOfLength n).length = 2 ^ n := by
  simp [wordsOfLength_eq_spread, length_spread]

theorem letters_ascending {n : Nat} : ∀ l ∈ List.replicate n [(97 : UInt8), 98], l.Pairwise (· < ·) := by
  intro l hl
  rw [List.eq_of_mem_replicate hl]
  decide

theorem ascending_wordsOfLength (n : Nat) : Ascending (wordsOfLength n) :=
  wordsOfLength_eq_spread n ▸ ascending_spread letters_ascending

theorem ncard_neededArcs_wordsOfLength (n : Nat) : (neededArcs (wordsOfLength n)).ncard ≤ 2 * n := by
  have hle := ncard_neededArcs_spread_le (List.replicate n [97, 98])
  simp only [List.map_replicate, List.sum_replicate, List.length_cons, List.length_nil, smul_eq_mul] at hle
  rw [wordsOfLength_eq_spread]
  omega

theorem RowFormat.length_bytes_le {F : RowFormat} {address : Nat → Nat} {bound : PlacedRow → Nat}
    {rows : List PlacedRow} (h : ∀ r ∈ rows, ∀ place, (F.row address place r).length ≤ bound r) (place : Nat) :
    (F.bytes address place rows).length ≤ (rows.map bound).sum := by
  induction rows generalizing place with
  | nil => exact Nat.le_refl 0
  | cons r rows ih =>
    have hfirst := h r (by simp) place
    have hrest := ih (fun r' hr' => h r' (List.mem_cons_of_mem r hr')) (place + 1)
    rw [bytes, List.length_append, List.map_cons, List.sum_cons]
    omega

namespace UniformWriter

theorem length_row_le {countWidth width : Nat} (hcount : countWidth ≤ 4) (hwidth : width ≤ 8) (hasRoot : Bool)
    (address : Nat → Nat) (place : Nat) {r : PlacedRow} (hr : r.arcs ≠ []) :
    ((format countWidth width hasRoot).row address place r).length ≤ 13 * r.arcs.length := by
  have harcs : (r.arcs.map (arcSize width place)).sum ≤ r.arcs.length * 9 := by
    have hle := List.sum_le_card_nsmul (r.arcs.map (arcSize width place)) 9 fun n hn => by
      obtain ⟨a, -, rfl⟩ := List.mem_map.1 hn
      rw [arcSize]
      split <;> omega
    rwa [List.length_map, smul_eq_mul] at hle
  have hpos := List.length_pos_iff.2 hr
  rw [length_row, rowSize_eq_sum]
  omega

/-- How long a stream may be, with counts and addresses of the greatest width. -/
theorem length_writePlan_le (w : UniformWriter) {plan : Plan} (hrows : ∀ r ∈ plan.rows, r.arcs ≠ []) {countWidth : Nat}
    (hcount : countWidth ≤ 4) :
    (w.writePlan plan countWidth).bytes.length ≤ 34 + 13 * (plan.rows.map fun r => r.arcs.length).sum := by
  obtain ⟨s, hready, hscript⟩ := w.writePlan_eq plan countWidth
  obtain ⟨hlow, hhigh⟩ := hready.width
  have hhead : (w.head countWidth s.width).length = 8 := rfl
  have hopening : (opening countWidth s.width plan.root.isSome).length ≤ 26 := by
    rw [length_opening, openingSize]
    split <;> omega
  have hbytes : ((format countWidth s.width plan.root.isSome).bytes (placed plan countWidth s) 0 plan.rows).length ≤
      (plan.rows.map fun r => 13 * r.arcs.length).sum :=
    RowFormat.length_bytes_le (fun r hr place => length_row_le hcount hhigh plan.root.isSome _ place (hrows r hr)) 0
  have hbody : s.pass.body.toList = opening countWidth s.width plan.root.isSome ++
      (format countWidth s.width plan.root.isSome).bytes (placed plan countWidth s) 0 plan.rows := hready.laid.body_eq
  rw [List.sum_map_mul_left] at hbytes
  rw [hscript, bytes_stages, List.length_append, hhead, hbody, List.length_append]
  omega

end UniformWriter

/-- How long the stream of an automaton of words may be. -/
theorem Builder.Finished.length_writePlan_le {W : List Word} {p : Pool} {root : UInt32} (h : Finished W p root)
    (w : UniformWriter) {order : List State} (horder : (p.reader root).Surveyed order) (count : State → Nat)
    {countWidth : Nat} (hcount : countWidth ≤ 4) :
    (w.writePlan ((p.reader root).graph.plan count order) countWidth).bytes.length ≤
      34 + 13 * (neededArcs W).ncard := by
  have hplan := h.readable.plan_sound horder.toOrdered count
  have harcs : (((p.reader root).graph.plan count order).rows.map fun r => r.arcs.length).sum = (neededArcs W).ncard := by
    rw [Graph.plan_eq, List.map_map, ← h.arcs_eq, ← h.sum_rows horder]
    congr 1
    exact List.map_congr_left fun s _ => PlacedArc.length_placeArcs _ _
  rw [← harcs]
  exact w.length_writePlan_le (fun r hr => (hplan.run r hr).ne_nil) hcount

/-- The automaton of all words of a length over two letters is built, and its stream with counts is short. -/
theorem exists_converts_wordsOfLength {n : Nat} (hpos : 0 < n) (hn : n < 2 ^ 20) : ∃ p root x r,
    Builder.build (wordsOfLength n) = .ok ⟨Pool.toBytes p root⟩ ∧ Builder.Finished (wordsOfLength n) p root ∧
    (Writer.uniform { flags := Flags.ofList [.numbers] }).Converts (p.reader root) x ∧ x.WithinReach ∧
    (p.reader root).graph.root = some r ∧ (∀ w, (p.reader root).graph.Accepts r w ↔ w ∈ wordsOfLength n) ∧
    {w | (p.reader root).graph.Accepts r w}.ncard = 2 ^ n := by
  have hneeded := ncard_neededArcs_wordsOfLength n
  obtain ⟨p, root, hb, h⟩ : ∃ p root, Builder.build (wordsOfLength n) = .ok ⟨Pool.toBytes p root⟩ ∧
      Builder.Finished (wordsOfLength n) p root := by
    rw [wordsOfLength_eq_spread]
    refine Builder.build_spread letters_ascending (by simp; omega) ?_
    simp [Record.size]
    omega
  refine ⟨p, root, ?_⟩
  obtain ⟨order, count, countWidth, horder, hwidth, hscript, -⟩ :=
    UniformWriter.script_eq { flags := Flags.ofList [.numbers] } h.readable (fun _ => h.acyclic) rfl
  obtain ⟨hresult, u, hu, -, -, hsize, -⟩ := UniformWriter.writePlan_restored horder count h.readable
    { flags := Flags.ofList [.numbers] } hwidth
  have hlength := h.length_writePlan_le { flags := Flags.ofList [.numbers] } horder count hwidth
  generalize UniformWriter.writePlan _ _ _ = script at hscript hresult hu hsize hlength
  have hconverts := Writer.converts_of_uniform hscript hresult hu
  have hreach : (Stream.uniform u).WithinReach := by
    show u.body.size < 2 ^ 32
    rw [hsize]
    omega
  have hne : wordsOfLength n ≠ [] := by
    rw [← List.length_pos_iff, length_wordsOfLength]
    exact Nat.two_pow_pos n
  obtain ⟨r, hroot, haccepts⟩ := h.root_accepts hne
  have hset : {w | (p.reader root).graph.Accepts r w} = ↑(wordsOfLength n).toFinset := by
    ext w
    simp [haccepts]
  refine ⟨.uniform u, r, hb, h, hconverts, hreach, hroot, haccepts, ?_⟩
  rw [hset, Set.ncard_coe_finset, List.toFinset_card_of_nodup (ascending_wordsOfLength n).nodup, length_wordsOfLength]

end WordAutomata
