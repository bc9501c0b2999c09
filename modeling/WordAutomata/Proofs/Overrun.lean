import WordAutomata.Proofs.Settling
import WordAutomata.Proofs.Stairs
import WordAutomata.Proofs.Width

namespace WordAutomata

namespace Compact

open CompactWriter

variable {c : Compact} {table : LabelTable} (htable : c.Holds table)

include htable

/-- There is a next arc only if it begins within 32 bits. -/
theorem nextArc_of_more {arc : UInt32} {label : UInt8} {isFinal isNext : Bool} {address : Nat}
    (h : c.body.Holds arc.toNat (markedArc table label isFinal false isNext address)) {next : Option Arc}
    (hnext : c.automaton.nextArc ⟨arc⟩ = .ok next) : ∃ b, next = some b ∧
      b.offset.toNat = arc.toNat + (markedArc table label isFinal false isNext address).length := by
  obtain ⟨m, hm, -, hlast, -⟩ := marks_eq htable h
  have hbehind := behind_eq htable h
  replace hnext : c.nextArc ⟨arc⟩ = .ok next := hnext
  rw [nextArc, hm, ok_bind, hlast, hbehind] at hnext
  simp only [Bool.false_eq_true, if_false, ok_bind] at hnext
  split at hnext
  · rename_i hlt
    obtain rfl := Except.ok.inj hnext
    exact ⟨_, rfl, UInt32.toNat_ofNat_of_lt' hlt⟩
  · cases hnext

/-- The arcs of a state can be read only if the last one begins within 32 bits. -/
theorem lt_of_carries {address : Nat → Nat} {place : Nat} {as : List PlacedArc} (hrun : PlacedArc.Run as) {arc : UInt32}
    (h : c.body.Holds arc.toNat (as.flatMap (arcBytes table address place))) {ts : List Transition}
    (hcarries : c.automaton.Carries ⟨arc⟩ ts) :
    arc.toNat + (as.dropLast.flatMap (arcBytes table address place)).length < 2 ^ 32 := by
  -- The next arc is asked for at each arc but the last one, and what is answered keeps within 32 bits.
  induction hrun generalizing arc ts with
  | last => exact arc.toNat_lt
  | @more a as hlast hrun ih =>
    rw [List.flatMap_cons, Bytes.holds_append, arcBytes_eq, hlast] at h
    obtain ⟨hfirst, hrest⟩ := h
    obtain ⟨t, ts', next, -, hnext, -, hon⟩ := hcarries.step
    obtain ⟨b, rfl, hb⟩ := nextArc_of_more htable hfirst hnext
    rw [← hb] at hrest
    have hlt := ih hrest hon
    rw [List.dropLast_cons_of_ne_nil hrun.ne_nil, List.flatMap_cons, List.length_append, arcBytes_eq, hlast]
    omega

end Compact

namespace CompactWriter

variable {s : Subject} {l : Settled}

/-- A state of which the first arc begins within 32 bits can be read only if the last one does. -/
theorem Ready.lt_of_row (h : Ready s l) (hplan : l.plan.Sound) (htable : (reader s l).Holds s.table) {i : Nat}
    {r : PlacedRow} (hr : l.plan.rows[i]? = some r)
    (hbegins : placed s l i + (countBytes s.count.isSome r.count).length < 2 ^ 32) {ts : List Transition}
    (hrow : (reader s l).automaton.row ⟨UInt32.ofNat (placed s l i)⟩ = .ok ts) :
    placed s l i + (countBytes s.count.isSome r.count).length +
      (r.arcs.dropLast.flatMap (arcBytes s.table (placed s l) i)).length < 2 ^ 32 := by
  have hstands := h.stands hplan hr
  have hstate : (UInt32.ofNat (placed s l i)).toNat = placed s l i :=
    UInt32.toNat_ofNat_of_lt' (h.placed_lt (List.getElem?_eq_some_iff.1 hr).1)
  have hhead := hstands.holds_head
  rw [← hstate] at hhead
  have hfirst := firstArc_eq hhead
  have harc := UInt32.toNat_ofNat_of_lt' hbegins
  obtain ⟨a, ha, hcarries⟩ := Automaton.row_eq_ok.1 hrow
  obtain rfl := Except.ok.inj (hfirst.symm.trans ha)
  rw [hstate] at hcarries
  have hlt := Compact.lt_of_carries htable (hplan.run r (List.mem_of_getElem? hr))
    (by rw [harc]; exact hstands.holds_arcs) hcarries
  rwa [harc] at hlt

end CompactWriter

theorem totalBelow_fan (count : State → Nat) (l : List UInt8) : totalBelow count (l.map (⟨·, true, none⟩)) = l.length := by
  induction l with
  | nil => rfl
  | cons c l ih =>
    rw [List.map_cons, totalBelow_cons, ih, List.length_cons, Nat.add_comm]
    rfl

/-- A state of which every arc ends a word. -/
def fanPlan (count : Nat) (l : List UInt8) : Plan := ⟨some 0, [⟨count, PlacedArc.fan true none l⟩]⟩

theorem fanPlan_sound (count : Nat) {l : List UInt8} (h : l ≠ []) : (fanPlan count l).Sound := by
  refine ⟨?_, ?_, by simp [fanPlan]⟩
  · intro r hr
    rw [List.mem_singleton.1 hr]
    exact PlacedArc.run_fan true h
  · intro r hr a ha i hi
    rw [List.mem_singleton.1 hr] at ha
    rw [PlacedArc.target_of_mem_fan ha] at hi
    cases hi

/-- Whatever order the states are written in, there is but one. -/
theorem Graph.Stairs.plan_eq_fanPlan {G : Graph} {l : List UInt8} {r : State} (h : G.Stairs true [l] [r])
    (hroot : G.root = some r) {order : List State} (horder : G.Ordered order) (count : State → Nat) :
    order = [r] ∧ G.plan count order = fanPlan (count r) l := by
  have hone : order = [r] := by
    apply List.perm_singleton.1
    refine (List.perm_ext_iff_of_nodup horder.nodup (List.nodup_singleton r)).2 fun t => ?_
    rw [horder.mem_iff]
    exact ⟨h.mem_of_reachable hroot, fun ht => List.mem_singleton.1 ht ▸ .root hroot⟩
  have hrow : G.row r = l.map (⟨·, true, none⟩) := h.row_eq (i := 0) rfl rfl
  rw [hone, plan_eq, List.map_singleton, hrow, PlacedArc.placeArcs_fan, hroot, Option.map_some,
    placeIn_eq (List.nodup_singleton r) (i := 0) rfl]
  exact ⟨rfl, rfl⟩

namespace UniformWriter

theorem roomy_fanPlan (count : Nat) (l : List UInt8) : Roomy 0 1 (fanPlan count l) := by
  intro i r hr a ha _
  obtain rfl := List.mem_singleton.1 (List.mem_of_getElem? hr)
  have hmarks := marks_lt a.isFinal a.isLast
  rw [PlacedArc.target_of_mem_fan ha, Option.elim_none, combine]
  omega

theorem flatMap_arcBytes_fan (address : Nat → Nat) (place : Nat) (l : List UInt8) (c : UInt8) :
    (PlacedArc.fan true none (l ++ [c])).flatMap (arcBytes 1 address place) = l.flatMap (fun d => [d, 1]) ++ [c, 3] := by
  induction l with
  | nil => rfl
  | cons d l ih =>
    obtain ⟨e, l', hl'⟩ := List.exists_cons_of_ne_nil (show l ++ [c] ≠ [] by simp)
    rw [hl'] at ih
    rw [List.cons_append, hl', PlacedArc.fan, List.flatMap_cons, ih]
    rfl

/-- The stream of such a state, where addresses take a byte. -/
def fanStream (l : List UInt8) (c : UInt8) : List UInt8 :=
  [0x5c, 0x66, 0x73, 0x61, 5, 0x5f, 0x2b, 1, 0, 0, 0x5e, 6] ++ (l.flatMap (fun d => [d, 1]) ++ [c, 3])

theorem ofBytes_fanStream {l : List UInt8} {c : UInt8} (hsize : 6 + 2 * l.length < 2 ^ 32) :
    ∃ u r, Uniform.ofBytes (fanStream l c).toArray = .ok u ∧ u.automaton.Readable ∧ u.automaton.graph.root = some r ∧
      u.automaton.graph.Stairs true [l ++ [c]] [r] := by
  obtain ⟨s, hlayout, hready⟩ := layout_ready (fanPlan 0 (l ++ [c])) 0 (Nat.le_refl 1) (by decide) #[]
  have hlow := hready.width.1
  have hwidth : s.width = 1 := by
    by_contra hwide
    exact (layout_least behind_empty hlayout).2 1 (Nat.le_refl 1) (by omega) (roomy_fanPlan 0 _)
  have hbody : s.pass.body.toList = [0, 0, 0x5e, 6] ++ (l.flatMap (fun d => [d, 1]) ++ [c, 3]) := by
    rw [hready.laid.body_eq, hwidth, ← flatMap_arcBytes_fan]
    exact congrArg _ (List.append_nil _)
  have hlength : s.pass.body.size = 6 + 2 * l.length := by
    rw [← Array.length_toList, hbody]
    simp
    omega
  have hplan := fanPlan_sound 0 (l := l ++ [c]) (by simp)
  have hback := hready.readBack {} hplan (by decide) (.inr ⟨rfl, by simp [fanPlan]⟩) (by omega)
  have hu : Uniform.ofBytes (fanStream l c).toArray = .ok (reader {} 0 s) := by
    have hbytes := ofBytes_eq {} hready (by decide)
    rw [hwidth, hbody] at hbytes
    exact hbytes
  have hroot := hback.root
  have hrow := hback.row 0 _ rfl
  rw [PlacedArc.map_transition_fan] at hrow
  have hgraph := Automaton.graph_root hroot
  have hstairs : (reader {} 0 s).automaton.graph.Stairs true [l ++ [c]] [_] := .last (Automaton.graph_row hrow)
  refine ⟨reader {} 0 s, _, hu, ⟨⟨_, hroot⟩, fun ht => ?_⟩, hgraph, hstairs⟩
  rw [List.mem_singleton.1 (hstairs.mem_of_reachable hgraph ht)]
  exact ⟨_, hrow⟩

end UniformWriter

namespace CompactWriter

theorem le_length_code {n : Nat} (h : 2 ^ 28 ≤ n) : 5 ≤ (VCode.code n).length := by
  rw [VCode.length_code, if_neg (by omega), VCode.length_code, if_neg (by omega), VCode.length_code, if_neg (by omega),
    VCode.length_code, if_neg (by omega)]
  have hpos := VCode.length_code_pos (n / 128 / 128 / 128 / 128)
  omega

theorem length_labelBytes_pos (table : LabelTable) (label : UInt8) (marks : Nat) :
    0 < (labelBytes table label marks).length := by
  rw [labelBytes]
  split <;> simp

theorem le_length_arcBytes (table : LabelTable) (address : Nat → Nat) (place : Nat) {as : List PlacedArc}
    (h : ∀ a ∈ as, a.target = none) : 2 * as.length ≤ (as.flatMap (arcBytes table address place)).length := by
  induction as with
  | nil => exact Nat.le_refl 0
  | cons a as ih =>
    obtain ⟨ha, has⟩ := List.forall_mem_cons.1 h
    have hlabel := length_labelBytes_pos table a.label (marks a.isFinal a.isLast false)
    have hcode := VCode.length_code_pos 0
    have hfirst : 2 ≤ (arcBytes table address place a).length := by
      rw [arcBytes, isShort, ha, if_neg (by simp), List.length_append]
      exact Nat.add_le_add hlabel hcode
    have hrest := ih has
    rw [List.flatMap_cons, List.length_append, List.length_cons]
    omega

theorem le_length_opening (table : LabelTable) (root : Option Nat) (address : Nat → Nat) :
    3 ≤ (opening table true root address).length := by
  have hzero : 0 < (countBytes true 0).length := VCode.length_code_pos 0
  have hlabel := length_labelBytes_pos table epsilonLabel (marks false true false)
  have hcode := VCode.length_code_pos (root.elim 0 address)
  rw [opening, List.length_append, List.length_append]
  omega

section

variable {s : Subject} {layout : Settled} (h : Ready s layout)

include h

theorem Ready.length_opening_le : (opening s.table s.count.isSome layout.plan.root (placed s layout)).length ≤ 12 := by
  refine CompactWriter.length_opening_le (fun place => ?_) _ _ _
  by_cases hplace : place < layout.plan.rows.length
  · exact h.placed_lt hplace
  · have hsize : layout.pass.offsets.size ≤ place := by
      rw [← h.pass_eq, RowFormat.size_pass]
      exact Nat.le_of_not_lt hplace
    rw [placed, RowFormat.placed_of_size_le hsize]
    exact show 2 ^ 32 - 1 < 2 ^ 32 by decide

/-- A state with very many arcs can be read only if it has less than 2^31 of them. -/
theorem Ready.lt_of_readable_fan {count : Nat} {l : List UInt8} (hplan : layout.plan = fanPlan count l) (hne : l ≠ [])
    (hnumbers : s.count.isSome = true) (htable : (reader s layout).Holds s.table) (hlow : 2 ^ 28 ≤ count)
    (hhigh : count < 2 ^ 32) (hread : (reader s layout).automaton.Readable) : 6 + 2 * l.length < 2 ^ 32 := by
  have hsound : layout.plan.Sound := hplan ▸ fanPlan_sound count hne
  have hr : layout.plan.rows[0]? = some ⟨count, PlacedArc.fan true none l⟩ := by
    rw [hplan]
    rfl
  have hroot := Automaton.graph_root (h.root_eq hsound htable)
  rw [hplan, fanPlan, Option.map_some] at hroot
  obtain ⟨ts, hrow⟩ := hread.row_ok (.root hroot)
  have hplaced : placed s layout 0 = (opening s.table s.count.isSome layout.plan.root (placed s layout)).length :=
    h.laid.placed_zero (by simp [hplan, fanPlan])
  have hbegins := h.length_opening_le
  rw [← hplaced] at hbegins
  have hbehind := le_length_opening s.table layout.plan.root (placed s layout)
  rw [← hnumbers, ← hplaced] at hbehind
  have hcount : (countBytes s.count.isSome count).length = 5 := by
    rw [hnumbers]
    exact Nat.le_antisymm (length_countBytes_le true hhigh) (le_length_code hlow)
  have hlt : placed s layout 0 + (countBytes s.count.isSome count).length +
      ((PlacedArc.fan true none l).dropLast.flatMap (arcBytes s.table (placed s layout) 0)).length < 2 ^ 32 := by
    refine h.lt_of_row hsound htable hr ?_ hrow
    show placed s layout 0 + (countBytes s.count.isSome count).length < 2 ^ 32
    omega
  have hnowhere : ∀ a ∈ (PlacedArc.fan true none l).dropLast, a.target = none := fun a ha =>
    PlacedArc.target_of_mem_fan (List.dropLast_subset _ ha)
  have harcs := le_length_arcBytes s.table (placed s layout) 0 hnowhere
  rw [List.length_dropLast, PlacedArc.length_fan] at harcs
  have hpos := List.length_pos_iff.2 hne
  omega

end

/-- A state with very many arcs, each of which ends a word, is written with its count, but cannot be read again. -/
theorem delivered_fan (w : CompactWriter) (hflags : unsupported? .compact supported w.flags = none)
    (hnumbers : w.flags.numbers = true) {A : Automaton} (hread : A.Readable) {r : State} (hroot : A.graph.root = some r)
    {l : List UInt8} (hstairs : A.graph.Stairs true [l] [r]) (hlow : 2 ^ 28 ≤ l.length) (hhigh : l.length < 2 ^ 32) :
    ∃ script n c, w.script A = .ok script ∧ (script.deliverTo .unlimited).result = .ok n ∧
      Compact.ofBytes (script.deliverTo .unlimited).bytes.toArray = .ok c ∧
      (c.automaton.Readable → 6 + 2 * l.length < 2 ^ 32) := by
  obtain ⟨states, count, hstates, hscript, hcount⟩ := w.script_eq hread fun _ => hstairs.acyclic hroot
  obtain ⟨counts, -, hcounted, rfl⟩ := hcount hnumbers
  rw [hflags] at hscript
  have hplan {order : List State} (horder : A.graph.Ordered order) := hstairs.plan_eq_fanPlan hroot horder (counts.getD · 0)
  have hroom (order : List State) (horder : A.graph.Ordered order) :
      12 + ((A.graph.plan (counts.getD · 0) order).rows.dropLast.map rowRoom).sum < 2 ^ 32 := by
    rw [(hplan horder).2]
    exact show 12 < 2 ^ 32 by decide
  have hcounts (t : State) : ((some (counts.getD · 0)).getD fun _ => 0) t < 2 ^ 32 := by
    have hle := hcounted.le_maxCount t
    rw [maxCount] at hle
    exact show counts.getD t 0 < 2 ^ 32 by omega
  have hfew : ¬maxPasses < 4 * states.length + 2 := by
    rw [(hplan hstates).1, List.length_singleton]
    decide
  have hresult := (writeSubject_total hstates (.ofLabels (A.graph.labels states)) hcounts hroom w).resolve_right
    fun hmany => hfew hmany.2
  obtain ⟨moved, layout, hmoved, hlayout, hready, hwritten⟩ := writeSubject_cases hresult
  have horder := Graph.linearize_ordered fun t ht => (hstates.mem_iff t).1 (hmoved t ht)
  replace hlayout : layout.plan = fanPlan (counts.getD r 0) l := hlayout.trans (hplan horder).2
  have hne : l ≠ [] := by
    rintro rfl
    simp at hlow
  have hsound : layout.plan.Sound := hlayout ▸ fanPlan_sound _ hne
  have htable : (reader ⟨A.graph, .ofLabels (A.graph.labels states), some (counts.getD · 0)⟩ layout).Holds
      (.ofLabels (A.graph.labels states)) := ⟨rfl, LabelTable.length_ofLabels_le _⟩
  obtain ⟨htakes, hbytes⟩ := deliver_unlimited (w.writeSubject ⟨A.graph, .ofLabels (A.graph.labels states),
    some (counts.getD · 0)⟩ states).result (w.writeSubject ⟨A.graph, .ofLabels (A.graph.labels states),
    some (counts.getD · 0)⟩ states).events
  have hc := hready.ofBytes_eq hsound htable
  rw [← bytes_stages, ← hwritten] at hc
  refine ⟨_, _, _, hscript, htakes.trans hresult, ?_, hready.lt_of_readable_fan hlayout hne rfl htable ?_ (hcounts r)⟩
  · rw [Script.deliverTo, hbytes]
    exact hc
  · have hcount := hcounted.count_eq r (.root hroot)
    have hrow : A.graph.row r = l.map (⟨·, true, none⟩) := hstairs.row_eq (i := 0) rfl rfl
    rw [hrow, totalBelow_fan, maxCount] at hcount
    omega

/-- Of such a state with 2147483645 arcs the last one begins beyond 2^32. The stream is accepted all the same. -/
theorem delivered_overrun : ∃ u script n c,
    Uniform.ofBytes (UniformWriter.fanStream (List.replicate 2147483644 97) 98).toArray = .ok u ∧
    u.automaton.Readable ∧ u.automaton.graph.Acyclic ∧
    ({ flags := Flags.ofList [.numbers] } : CompactWriter).script u.automaton = .ok script ∧
    (script.deliverTo .unlimited).result = .ok n ∧
    Compact.ofBytes (script.deliverTo .unlimited).bytes.toArray = .ok c ∧ ¬u.automaton.Restored c.automaton true := by
  have hlength : (List.replicate 2147483644 (97 : UInt8)).length = 2147483644 := List.length_replicate
  generalize List.replicate 2147483644 (97 : UInt8) = l at hlength ⊢
  obtain ⟨u, r, hu, hread, hroot, hstairs⟩ := UniformWriter.ofBytes_fanStream (l := l) (c := 98) (by omega)
  have hmany : (l ++ [98]).length = 2147483645 := by rw [List.length_append, hlength, List.length_singleton]
  obtain ⟨script, n, c, hscript, hresult, hc, hlt⟩ := delivered_fan { flags := Flags.ofList [.numbers] } rfl rfl hread hroot
    hstairs (by omega) (by omega)
  refine ⟨u, script, n, c, hu, hread, hstairs.acyclic hroot, hscript, hresult, hc, fun hrestored => ?_⟩
  have hless := hlt hrestored.readable
  omega

end CompactWriter

end WordAutomata
