import WordAutomata.Proofs.Copies
import WordAutomata.Proofs.Rank
import WordAutomata.Proofs.Stairs
import WordAutomata.Proofs.Width

namespace WordAutomata

namespace UniformWriter

section

variable {P : Plan} {ls : List (List UInt8)} {l : List UInt8} (hP : P.Stairs (ls ++ [l])) (hls : ∀ l' ∈ ls, l' ≠ [])

include hP hls

theorem offset_succ_stairs (width : Nat) {i : Nat} (hi : i < ls.length) :
    offset 4 width true P.rows (i + 1) =
      offset 4 width true P.rows i + (4 + ((ls[i].length - 1) * (1 + width) + 2)) := by
  have hlength : P.rows.length = ls.length + 1 := by rw [hP.length_eq, List.length_append, List.length_singleton]
  have hr : P.rows[i]? = some P.rows[i] := List.getElem?_eq_getElem (by omega)
  have harcs := hP.arcs_eq i _ ls[i] hr (by rw [List.getElem?_append_left hi, List.getElem?_eq_getElem hi])
  rw [if_pos (by simpa using hi)] at harcs
  rw [offset_succ hr, rowSize_eq_sum, harcs, PlacedArc.sum_arcSize_fan width i (hls _ (List.getElem_mem hi))]

/-- With counts of four bytes and addresses of five, every arc takes six bytes, if those of the count stand for what the
last arc of a state saves. -/
theorem offset_stairs {i : Nat} (hi : i ≤ ls.length) :
    offset 4 5 true P.rows i = 16 + 6 * ((ls.take i).map List.length).sum := by
  induction i with
  | zero => rfl
  | succ i ih =>
    have hpos := List.length_pos_iff.2 (hls _ (List.getElem_mem hi))
    rw [offset_succ_stairs hP hls 5 hi, ih (by omega), List.take_add_one, List.getElem?_eq_getElem hi]
    simp only [Option.toList_some, List.map_append, List.map_cons, List.map_nil, List.sum_append, List.sum_cons,
      List.sum_nil]
    omega

theorem le_offset_stairs {width : Nat} (hwidth : 1 ≤ width) {i : Nat} (hi : i ≤ ls.length) :
    2 * ((ls.take i).map List.length).sum ≤ offset 4 width true P.rows i := by
  refine Nat.le_trans ?_ (offset_mono hwidth i)
  induction i with
  | zero => exact Nat.zero_le _
  | succ i ih =>
    have hbefore := ih (by omega)
    rw [offset_succ_stairs hP hls 1 hi, List.take_add_one, List.getElem?_eq_getElem hi]
    simp only [Option.toList_some, List.map_append, List.map_cons, List.map_nil, List.sum_append, List.sum_cons,
      List.sum_nil]
    omega

theorem placed_stairs {s : Settled} (hready : Ready P 4 s) (hwidth : s.width = 5) {i : Nat} (hi : i ≤ ls.length) :
    placed P 4 s i = 16 + 6 * ((ls.take i).map List.length).sum := by
  rw [hready.placed_eq (by rw [hP.length_eq]; simp; omega), hwidth, hP.root_eq, ← offset_stairs hP hls hi]
  rfl

variable (hplace : 16 + 6 * (ls.map List.length).sum = 2 ^ 32)

include hplace

theorem offset_stairs_le {i : Nat} (hi : i ≤ ls.length) : offset 4 5 true P.rows i ≤ 2 ^ 32 := by
  have hle : ((ls.take i).map List.length).sum ≤ (ls.map List.length).sum :=
    ((List.take_sublist i ls).map List.length).sum_le_sum fun _ _ => Nat.zero_le _
  rw [offset_stairs hP hls hi]
  omega

/-- All states below the last are at addresses of 32 bits; that of the last one is 0 in 32 bits. -/
theorem placed_stairs_lt {s : Settled} (hready : Ready P 4 s) (hwidth : s.width = 5) :
    (∀ i < ls.length, 0 < placed P 4 s i ∧ placed P 4 s i < 2 ^ 32) ∧ placed P 4 s ls.length = 2 ^ 32 := by
  constructor
  · intro i hi
    have hsucc := offset_succ_stairs hP hls 5 hi
    have hle : offset 4 5 true P.rows (i + 1) ≤ 2 ^ 32 := offset_stairs_le hP hls hplace hi
    rw [placed_stairs hP hls hready hwidth (Nat.le_of_lt hi), ← offset_stairs hP hls (Nat.le_of_lt hi)]
    have hpos := offset_stairs hP hls (Nat.le_of_lt hi)
    omega
  · rw [placed_stairs hP hls hready hwidth (Nat.le_refl _), List.take_length, hplace]

theorem roomy_stairs : Roomy 4 5 P := by
  intro i r hr a ha _
  have hlt := (List.getElem?_eq_some_iff.1 hr).1
  rw [hP.length_eq] at hlt
  rw [hP.arcs_eq i r _ hr (List.getElem?_eq_getElem hlt)] at ha
  have hmarks := marks_lt a.isFinal a.isLast
  rw [PlacedArc.target_of_mem_fan ha, hP.root_eq, Option.isSome_some, combine]
  split
  · rename_i hmore
    rw [List.length_append, List.length_singleton] at hmore
    have hle := offset_stairs_le hP hls hplace (i := i + 1) (by omega)
    rw [Option.elim_some]
    omega
  · rw [Option.elim_none]
    omega

variable (hlast : ∀ l' ∈ ls.getLast?, 2 ≤ l'.length) {s : Settled}

include hlast in
/-- The state at 2^32 is the target of an arc that holds its address, for which four bytes are too few. -/
theorem width_stairs (h : layout P 4 1 #[] = .ok s) (hready : Ready P 4 s) : s.width = 5 := by
  have hle : s.width ≤ 5 := by
    by_contra hgt
    exact (layout_least behind_empty h).2 5 (by decide) (by omega) (roomy_stairs hP hls hplace)
  obtain ⟨hlow, -⟩ := hready.width
  have hfar := le_offset_stairs hP hls hlow (Nat.le_refl ls.length)
  rw [List.take_length] at hfar
  obtain ⟨front, l', rfl⟩ : ∃ front l', ls = front ++ [l'] := by
    rcases List.eq_nil_or_concat ls with rfl | hconcat
    · simp at hplace
    · simpa using hconcat
  obtain ⟨c, d, cs, rfl⟩ : ∃ c d cs, l' = c :: d :: cs := by
    have htwo := hlast l' (by simp)
    match l', htwo with
    | c :: d :: cs, _ => exact ⟨c, d, cs, rfl⟩
  have hlength : P.rows.length = front.length + 2 := by simp [hP.length_eq]
  have hr : P.rows[front.length]? = some P.rows[front.length] := List.getElem?_eq_getElem (by omega)
  have harcs := hP.arcs_eq front.length _ (c :: d :: cs) hr (by simp)
  have hfits : arcFits s.width (placed P 4 s) front.length ⟨c, false, false, some (front.length + 1)⟩ = true := by
    refine List.all_eq_true.1 (hready.laid.fits front.length _ hr) _ ?_
    simp [harcs, PlacedArc.fan]
  have hplaced : placed P 4 s (front.length + 1) = offset 4 s.width true P.rows (front ++ [c :: d :: cs]).length := by
    rw [hready.placed_eq (by omega), hP.root_eq, List.length_append, List.length_singleton]
    rfl
  have hshort : isShort front.length ⟨c, false, false, some (front.length + 1)⟩ = false := rfl
  rw [arcFits, hshort, Bool.false_or, Uniform.wideFits_iff, Option.elim_some, hplaced, combine] at hfits
  by_contra hne
  have hpow : 256 ^ s.width ≤ 256 ^ 4 := Nat.pow_le_pow_right (by decide) (by omega)
  omega

variable (hready : Ready P 4 s) (hwidth : s.width = 5)

include hready hwidth

/-- A row below the last is read with arcs that lead to the next state, but those to the last one lead nowhere. -/
theorem row_stairs (hplan : P.Sound) (w : UniformWriter) {i : Nat} (hi : i < ls.length) :
    (w.reader 4 s).automaton.row ⟨UInt32.ofNat (placed P 4 s i)⟩ = .ok (ls[i].map
      (⟨·, false, if i + 1 < ls.length then some ⟨UInt32.ofNat (placed P 4 s (i + 1))⟩ else none⟩)) := by
  have hlength : P.rows.length = ls.length + 1 := by simp [hP.length_eq]
  have hr : P.rows[i]? = some P.rows[i] := List.getElem?_eq_getElem (by omega)
  have harcs := hP.arcs_eq i _ ls[i] hr (by rw [List.getElem?_append_left hi, List.getElem?_eq_getElem hi])
  rw [if_pos (by simpa using hi)] at harcs
  have hnext := (hready.stands hplan hr).next (by omega)
  have hend : placed P 4 s (i + 1) ≤ 2 ^ 32 := by
    rw [placed_stairs hP hls hready hwidth hi, ← offset_stairs hP hls hi]
    exact offset_stairs_le hP hls hplace hi
  rw [length_little] at hnext
  have hroom : ∀ a ∈ P.rows[i].arcs, Uniform.HasRoom s.width (placed P 4 s) i a := by
    intro a ha hshort
    have hfits : arcFits s.width (placed P 4 s) i a = true := List.all_eq_true.1 (hready.laid.fits i _ hr) a ha
    rw [arcFits, hshort, Bool.false_or, Uniform.wideFits_iff, hwidth] at hfits
    rw [hwidth]
    exact hfits.resolve_left (by decide)
  have hlastFlag : decide (i + 1 = (ls ++ [l]).length) = false := by
    rw [List.length_append, List.length_singleton]
    exact decide_eq_false (by omega)
  rw [hready.row_cut hplan w hr hroom (by omega), harcs, PlacedArc.map_cut_fan, hlastFlag]
  have htarget : (PlacedArc.cut (placed P 4 s) ⟨0, false, true, some (i + 1)⟩).target =
      if i + 1 < ls.length then some ⟨UInt32.ofNat (placed P 4 s (i + 1))⟩ else none := by
    obtain ⟨hbelow, hlost⟩ := placed_stairs_lt hP hls hplace hready hwidth
    by_cases hmore : i + 1 < ls.length
    · obtain ⟨hpos, hsmall⟩ := hbelow (i + 1) hmore
      have hne : UInt32.ofNat (placed P 4 s (i + 1)) ≠ 0 := by
        intro hzero
        have hnat := UInt32.toNat_ofNat_of_lt' hsmall
        rw [hzero, UInt32.toNat_zero] at hnat
        omega
      simp [PlacedArc.cut, hmore, hne]
    · have hlast : i + 1 = ls.length := by omega
      rw [← hlast] at hlost
      simp [PlacedArc.cut, hmore, hlost]
  rw [htarget]

/-- What is read are the stairs without the last state, so that nothing is accepted. -/
theorem reader_stairs (hplan : P.Sound) (w : UniformWriter) (hne : ls ≠ []) : (w.reader 4 s).automaton.Readable ∧
    ∃ t ts, (w.reader 4 s).automaton.graph.root = some t ∧ (w.reader 4 s).automaton.graph.Stairs false ls (t :: ts) := by
  have hrow {i : Nat} (hi : i < ls.length) := row_stairs hP hls hplace hready hwidth hplan w hi
  have hroot := hready.root_eq w (by decide) (.inr ⟨hP.root_eq, by simp [← List.length_pos_iff, hP.length_eq]⟩)
  rw [hP.root_eq, Option.map_some] at hroot
  generalize (w.reader 4 s).automaton = B at hrow hroot ⊢
  obtain ⟨n, hn⟩ := Nat.exists_eq_succ_of_ne_zero (Nat.ne_of_gt (List.length_pos_iff.2 hne))
  have hget (i : Nat) : ((List.range ls.length).map fun i => (⟨UInt32.ofNat (placed P 4 s i)⟩ : State))[i]? =
      if i < ls.length then some ⟨UInt32.ofNat (placed P 4 s i)⟩ else none := by
    by_cases hi : i < ls.length <;> simp [hi]
  have hstairs : B.graph.Stairs false ls
      ((List.range ls.length).map fun i => ⟨UInt32.ofNat (placed P 4 s i)⟩) := by
    refine .of_row_eq hne (by simp) fun i t l' ht hl' => ?_
    obtain ⟨hi, rfl⟩ := List.getElem?_eq_some_iff.1 hl'
    rw [hget, if_pos hi, Option.some.injEq] at ht
    rw [← ht, Automaton.graph_row (hrow hi), hget, Bool.false_and]
  have hmem (t : State) (ht : t ∈ (List.range ls.length).map fun i => (⟨UInt32.ofNat (placed P 4 s i)⟩ : State)) :
      ∃ ts, B.row t = .ok ts := by
    obtain ⟨i, hi, rfl⟩ := List.mem_map.1 ht
    exact ⟨_, hrow (List.mem_range.1 hi)⟩
  rw [hn, List.range_succ_eq_map, List.map_cons] at hstairs hmem
  have hgraph := Automaton.graph_root hroot
  exact ⟨⟨⟨_, hroot⟩, fun ht => hmem _ (hstairs.mem_of_reachable hgraph ht)⟩, _, _, hgraph, hstairs⟩

end

/-- What is written with numbers: the counts that are found, all of the width that the root's takes. -/
theorem script_numbers (w : UniformWriter) {A : Automaton} (hread : A.Readable) (hacyclic : A.graph.Acyclic)
    (hnumbers : w.flags.numbers = true) (hseparators : w.separatorConflict? A = .ok none) :
    ∃ order counts, A.survey = .ok order ∧ Counted A.graph counts A.graph.Reachable ∧
      w.script A = .ok (w.writePlan (A.graph.plan (counts.getD · 0) order) (countWidth A.graph.root (counts.getD · 0))) := by
  obtain ⟨order, hsurvey, -⟩ := hread.survey
  obtain ⟨counts, hcounts, hcounted⟩ := hread.counts hacyclic
  refine ⟨order, counts, hsurvey, hcounted, ?_⟩
  rw [script, unsupported?_eq, hseparators, hsurvey, hnumbers, hcounts]
  rfl

theorem countWidth_eq_four {G : Graph} {count : State → Nat} {r : State} (hroot : G.root = some r)
    (hlow : 2 ^ 24 ≤ count r) (hhigh : count r < 2 ^ 32) : countWidth G.root count = 4 := by
  have hle : bytesNeeded (count r) ≤ 4 := bytesNeeded_le (k := 4) (by omega)
  have hge : 4 ≤ bytesNeeded (count r) := by
    by_contra hlt
    have hpow : 256 ^ bytesNeeded (count r) ≤ 256 ^ 3 := Nat.pow_le_pow_right (by decide) (by omega)
    have hcount := lt_pow_bytesNeeded (count r)
    omega
  rw [countWidth, hroot, Option.elim_some]
  omega

/-- The automaton of many words with any of some letters at each place is written as its stairs, with counts of four
bytes. -/
theorem script_stairs (w : UniformWriter) (hnumbers : w.flags.numbers = true) {ls : List (List UInt8)} {p : Pool}
    {root : UInt32} (h : Builder.Finished (spread ls) p root)
    (hseparators : w.separatorConflict? (p.reader root) = .ok none) (hne : ls ≠ [])
    (hls : ∀ l ∈ ls, l.Pairwise (· < ·) ∧ l ≠ []) (hmany : 2 ^ 24 ≤ (ls.map List.length).prod) :
    ∃ P : Plan, P.Sound ∧ P.Stairs ls ∧ w.script (p.reader root) = .ok (w.writePlan P 4) := by
  obtain ⟨s, ss, hroot, hstairs⟩ := h.stairs hne hls
  obtain ⟨order, counts, hsurvey, hcounted, hscript⟩ := w.script_numbers h.readable h.acyclic hnumbers hseparators
  obtain ⟨order', hpreorder, horder, hbehind⟩ := h.readable.preorder
  obtain rfl : order' = order :=
    congrArg Readout.items (hpreorder.symm.trans (Automaton.preorder_of_survey hsurvey).1)
  have hordered : order' = s :: ss :=
    hstairs.order_eq (fun l hl => (hls l hl).2) hroot horder.toOrdered hbehind
  obtain ⟨depth, -, hspells⟩ := h.spells
  have hcount : counts.getD s 0 = min (ls.map List.length).prod maxCount := by
    rw [hspells.count_eq hcounted (.root hroot), ← length_spread, ← hspells.words_eq, hroot, Option.elim_some]
  have hmax : 2 ^ 24 ≤ maxCount ∧ maxCount < 2 ^ 32 := by decide
  rw [countWidth_eq_four hroot (by omega) (by omega)] at hscript
  refine ⟨_, h.readable.plan_sound horder.toOrdered _, ?_, hscript⟩
  rw [hordered]
  exact hstairs.plan hroot (hordered ▸ horder.nodup) _

/-- If the last state of such an automaton comes to stand at 2^32, what is read has all states but this one, and no arc that
ends words. -/
theorem converts_stairs {ls : List (List UInt8)} {l : List UInt8}
    (hls : ∀ l' ∈ ls ++ [l], l'.Pairwise (· < ·) ∧ l' ≠ [])
    (hfits : Record.size * (1 + ((ls ++ [l]).map List.length).sum) < 2 ^ 32)
    (hmany : 2 ^ 24 ≤ ((ls ++ [l]).map List.length).prod) (hlast : ∀ l' ∈ ls.getLast?, 2 ≤ l'.length)
    (hplace : 16 + 6 * (ls.map List.length).sum = 2 ^ 32) :
    ∃ b x t ts, Builder.build (spread (ls ++ [l])) = .ok b ∧
      (Writer.uniform { flags := Flags.ofList [.numbers] }).Converts b.automaton x ∧
      x.automaton.Readable ∧ x.automaton.flags.numbers = true ∧ x.automaton.graph.root = some t ∧
      x.automaton.graph.Stairs false ls (t :: ts) := by
  let w : UniformWriter := { flags := Flags.ofList [.numbers] }
  obtain ⟨p, root, hb, h⟩ := Builder.build_spread (fun l' hl' => (hls l' hl').1) (by simp) hfits
  obtain ⟨P, hplan, hP, hscript⟩ := w.script_stairs rfl h rfl (by simp) hls hmany
  obtain ⟨s, hlayout, hready⟩ := layout_ready P 4 (Nat.le_refl 1) (by decide) #[]
  have hls' : ∀ l' ∈ ls, l' ≠ [] := fun l' hl' => (hls l' (List.mem_append_left _ hl')).2
  have hwidth := width_stairs hP hls' hplace hlast hlayout hready
  have hne : ls ≠ [] := by
    rintro rfl
    simp at hplace
  obtain ⟨hreadable, t, ts, hroot, hstairs⟩ := reader_stairs hP hls' hplace hready hwidth hplan w hne
  have hwritten : w.writePlan P 4 = (w.stages 4 s.width s.pass).script := by
    simp only [writePlan, hlayout, hready.emit_eq]
  have hu : Uniform.ofBytes (w.writePlan P 4).bytes.toArray = .ok (w.reader 4 s) := by
    rw [hwritten, bytes_stages]
    exact w.ofBytes_eq hready (Nat.le_refl 4)
  have hresult : (w.writePlan P 4).result = .ok (w.writePlan P 4).bytes.length := by
    rw [hwritten]
    exact Stages.result_script _
  exact ⟨_, _, t, ts, hb, Writer.converts_of_uniform hscript hresult hu, hreadable, rfl, hroot, hstairs⟩

end UniformWriter

namespace Automaton

variable {A : Automaton}

/-- A word that begins with the first label goes on from where the first arc leads, if no word ends there. -/
theorem rankFrom_first {s : State} {c : UInt8} {cs : List UInt8} {target : Option State}
    (hrow : A.row s = .ok ((c :: cs).map (⟨·, false, target⟩))) {rank : Nat} (hrank : rank < 2 ^ 32) (w : Word) :
    A.rankFrom s rank (c :: w) =
      if w = [] then .ok none else target.elim (.ok none) fun t => A.rankFrom t rank w := by
  obtain ⟨a, ha, hcarries⟩ := row_eq_ok.1 hrow
  obtain ⟨ht, hfound⟩ := Carries.rankArc_head hcarries rfl rank
  rw [rankFrom_cons ha hfound ht (by simpa using hrank)]
  rfl

variable {ls : List (List UInt8)} {s : State} {ss : List State}

/-- Where no arc ends words, a path along first arcs finds no rank. -/
theorem rankFrom_stairs {c : UInt8} (h : A.graph.Stairs false ls ss) (hrows : ∀ s ∈ ss, ∃ ts, A.row s = .ok ts)
    (hheads : ∀ l ∈ ls, l.head? = some c) {rank : Nat} (hrank : rank < 2 ^ 32) (n : Nat) (hs : ss.head? = some s) :
    A.rankFrom s rank (List.replicate n c) = .ok none := by
  induction h generalizing s n with
  | @last l s' hrow =>
    obtain rfl : s' = s := Option.some.inj hs
    obtain ⟨ts, hts⟩ := hrows s' (by simp)
    obtain ⟨cs, rfl⟩ := List.head?_eq_some_iff.1 (hheads l (by simp))
    obtain rfl := (graph_row hts).symm.trans hrow
    cases n with
    | zero => rfl
    | succ n => simp [List.replicate_succ, rankFrom_first hts hrank]
  | @more l ls s' t ss hrow _ ih =>
    obtain rfl : s' = s := Option.some.inj hs
    obtain ⟨ts, hts⟩ := hrows s' (by simp)
    obtain ⟨cs, rfl⟩ := List.head?_eq_some_iff.1 (hheads l (by simp))
    obtain rfl := (graph_row hts).symm.trans hrow
    cases n with
    | zero => rfl
    | succ n =>
      have hrest := ih (List.forall_mem_cons.1 hrows).2 (List.forall_mem_cons.1 hheads).2 n rfl
      rw [List.replicate_succ, rankFrom_first hts hrank, Option.elim_some, hrest, ite_self]

end Automaton

/-- Places with one letter, and behind them places with two. -/
def forkedPlaces (n k : Nat) : List (List UInt8) := List.replicate n [97] ++ List.replicate k [97, 98]

theorem mem_forkedPlaces {n k : Nat} {l : List UInt8} (h : l ∈ forkedPlaces n k) : l = [97] ∨ l = [97, 98] := by
  rcases List.mem_append.1 h with h | h
  · exact .inl (List.eq_of_mem_replicate h)
  · exact .inr (List.eq_of_mem_replicate h)

theorem head?_forkedPlaces {n k : Nat} : ∀ l ∈ forkedPlaces n k ++ [[97]], l.head? = some 97 := by
  intro l hl
  rcases List.mem_append.1 hl with hl | hl
  · rcases mem_forkedPlaces hl with rfl | rfl <;> rfl
  · rw [List.mem_singleton.1 hl]
    rfl

theorem sum_forkedPlaces (n k : Nat) : ((forkedPlaces n k).map List.length).sum = n + 2 * k := by
  simp [forkedPlaces, Nat.mul_comm]

theorem prod_forkedPlaces (n k : Nat) : ((forkedPlaces n k).map List.length).prod = 2 ^ k := by
  simp [forkedPlaces]

/-- The words of some length with any of two letters at their last places but one. -/
def forkedWords (n k : Nat) : List Word := spread (forkedPlaces n k ++ [[97]])

theorem getElem?_zero_forkedWords (n k : Nat) : (forkedWords n k)[0]? = some (List.replicate (n + k + 1) 97) := by
  rw [← List.head?_eq_getElem?, forkedWords, head?_spread head?_forkedPlaces]
  simp [forkedPlaces, Nat.add_assoc]

theorem length_forkedWords (n k : Nat) : (forkedWords n k).length = 2 ^ k := by
  rw [forkedWords, length_spread, List.map_append, List.prod_append, prod_forkedPlaces]
  exact Nat.mul_one _

/-- What is read of these words has none of them, if the last state stands at 2^32. -/
theorem exists_converts_forkedWords {n k : Nat} (hk : 24 ≤ k) (hplace : 16 + 6 * (n + 2 * k) = 2 ^ 32) :
    ∃ b x, Builder.build (forkedWords n k) = .ok b ∧
      (Writer.uniform { flags := Flags.ofList [.numbers] }).Converts b.automaton x ∧
      (∀ m, x.automaton.rank (List.replicate m 97) = .ok none) ∧ x.automaton.words none = ⟨[], none⟩ := by
  have hls : ∀ l ∈ forkedPlaces n k ++ [[97]], l.Pairwise (· < ·) ∧ l ≠ [] := by
    intro l hl
    rcases List.mem_append.1 hl with hl | hl
    · rcases mem_forkedPlaces hl with rfl | rfl <;> decide
    · rw [List.mem_singleton.1 hl]
      decide
  have hsum := sum_forkedPlaces n k
  have hfits : Record.size * (1 + ((forkedPlaces n k ++ [[97]]).map List.length).sum) < 2 ^ 32 := by
    rw [List.map_append, List.sum_append, hsum]
    simp [Record.size]
    omega
  have hmany : 2 ^ 24 ≤ ((forkedPlaces n k ++ [[97]]).map List.length).prod := by
    rw [← length_spread]
    exact (length_forkedWords n k) ▸ Nat.pow_le_pow_right (by decide) hk
  have hlast : ∀ l ∈ (forkedPlaces n k).getLast?, 2 ≤ l.length := by
    have hne : k ≠ 0 := by omega
    simp [forkedPlaces, List.getLast?_append, List.getLast?_replicate, hne]
  obtain ⟨b, x, t, ts, hb, hconverts, hread, hnumbers, hroot, hstairs⟩ :=
    UniformWriter.converts_stairs hls hfits hmany hlast (by rw [hsum]; exact hplace)
  have hreach (s : State) (hs : x.automaton.graph.Reachable s) : s ∈ t :: ts := hstairs.mem_of_reachable hroot hs
  have hheads : ∀ l ∈ forkedPlaces n k, l.head? = some 97 := fun l hl => head?_forkedPlaces l (List.mem_append_left _ hl)
  have hrows : ∀ s ∈ t :: ts, ∃ us, x.automaton.row s = .ok us := fun s hs =>
    ⟨_, hread.row (hstairs.reachable (fun l hl => (hls l (List.mem_append_left _ hl)).2) hroot hs)⟩
  refine ⟨b, x, hb, hconverts, fun m => ?_, ?_⟩
  · have hrank := Automaton.rankFrom_stairs hstairs hrows hheads (show 0 < 2 ^ 32 by decide) m rfl
    rw [Automaton.rank, hnumbers, hread.root, hroot]
    exact hrank
  · have hdepth : (forkedPlaces n k).length ≤ Automaton.depthFor none := by
      have hlimit : Automaton.depthFor none = 2 ^ 32 := rfl
      rw [forkedPlaces, List.length_append, List.length_replicate, List.length_replicate, hlimit]
      omega
    have hwords := hread.words_spelled (fun s hs => hstairs.shallow (hreach s hs)) hdepth
    rw [hwords, hroot, Option.elim_some, hstairs.spelled_eq_nil _ (by simp)]

namespace Writer

/-- Read again with counts, the first of these words has no rank. -/
theorem converts_rank_lost : ∃ b x, Builder.build (forkedWords 715827832 24) = .ok b ∧
    (forkedWords 715827832 24).length < 2 ^ 32 ∧
    (Writer.uniform { flags := Flags.ofList [.numbers] }).Converts b.automaton x ∧
    ∃ w, (forkedWords 715827832 24)[0]? = some w ∧ x.automaton.rank w = .ok none := by
  obtain ⟨b, x, hb, hconverts, hrank, -⟩ := exists_converts_forkedWords (n := 715827832) (k := 24) (by decide) (by decide)
  refine ⟨b, x, hb, ?_, hconverts, _, getElem?_zero_forkedWords _ _, hrank _⟩
  rw [length_forkedWords]
  decide

end Writer

namespace Builder

/-- None of these words is spelled after one conversion. -/
theorem build_copied_lost : ∃ b x, build (forkedWords 715827832 24) = .ok b ∧ b.automaton.Copied [x] x.automaton ∧
    forkedWords 715827832 24 ≠ [] ∧ x.automaton.words none = ⟨[], none⟩ := by
  obtain ⟨b, x, hb, hconverts, -, hwords⟩ := exists_converts_forkedWords (n := 715827832) (k := 24) (by decide) (by decide)
  refine ⟨b, x, hb, .convert .start hconverts, ?_, hwords⟩
  rw [← List.length_pos_iff, length_forkedWords]
  decide

end Builder

end WordAutomata
