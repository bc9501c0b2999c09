import WordAutomata.Proofs.Compact
import WordAutomata.Proofs.Linearize
import WordAutomata.Proofs.Minimal
import WordAutomata.Proofs.Passes
import WordAutomata.Proofs.Script
import WordAutomata.Proofs.Tally

namespace WordAutomata

namespace CompactWriter

/-- A layout that is ready to be written. -/
structure Ready (s : Subject) (l : Settled) : Prop where
  pass_eq : (s.format l.plan).pass l.plan.rows l.pass.offsets = l.pass
  fits : l.pass.fits = true

theorem layout_cases {s : Subject} {moved : List State} {l : Settled} (h : layout s moved = .ok l) :
    l.plan = s.plan (s.graph.linearize moved) ∧ Ready s l := by
  rw [layout] at h
  split at h
  · rename_i p hp
    obtain rfl := Except.ok.inj h
    obtain ⟨hpass, hfits⟩ := RowFormat.pass_of_settle hp
    exact ⟨rfl, hpass, hfits⟩
  · cases h
  · cases h

/-- What cuts come to that are tried in turn from one on, up to the first that saves nothing or is beyond the last. -/
inductive Tried (layoutAt : Nat → Except WriteError Settled) (step last : Nat) : (cut size : Nat) →
    List (Nat × Settled) → Prop
  | done {cut size : Nat} : ¬(0 < step ∧ cut ≤ last) → Tried layoutAt step last cut size []
  | stop {cut size : Nat} {l : Settled} : 0 < step ∧ cut ≤ last → layoutAt cut = .ok l → size ≤ l.size →
      Tried layoutAt step last cut size [(cut, l)]
  | shrink {cut size : Nat} {l : Settled} {ts : List (Nat × Settled)} : 0 < step ∧ cut ≤ last → layoutAt cut = .ok l →
      l.size < size → Tried layoutAt step last (nextCut step cut) l.size ts →
      Tried layoutAt step last cut size ((cut, l) :: ts)

namespace Tried

variable {layoutAt : Nat → Except WriteError Settled} {step last cut size : Nat} {ts : List (Nat × Settled)}

theorem layout_eq (h : Tried layoutAt step last cut size ts) : ∀ t ∈ ts, layoutAt t.1 = .ok t.2 := by
  induction h with
  | done => simp
  | stop _ hl _ => simpa using hl
  | shrink _ hl _ _ ih => simpa using ⟨hl, by simpa using ih⟩

/-- Each cut is so many steps behind the first, in 64 bits. -/
theorem cut_modEq (h : Tried layoutAt step last cut size ts) {i : Nat} {t : Nat × Settled} (ht : ts[i]? = some t) :
    t.1 ≤ last ∧ t.1 ≡ cut + i * step [MOD 2 ^ 64] := by
  induction h generalizing i with
  | done => simp at ht
  | @stop cut _ l hcut _ _ =>
    obtain ⟨rfl, rfl⟩ : i = 0 ∧ (cut, l) = t := by simpa [List.getElem?_singleton] using ht
    exact ⟨hcut.2, by rw [Nat.zero_mul]; rfl⟩
  | @shrink cut _ l _ hcut _ _ _ ih =>
    cases i with
    | zero =>
      obtain rfl : (cut, l) = t := by simpa using ht
      exact ⟨hcut.2, by rw [Nat.zero_mul]; rfl⟩
    | succ i =>
      obtain ⟨hle, hsteps⟩ := ih (by simpa using ht)
      refine ⟨hle, hsteps.trans ?_⟩
      have hnext : nextCut step cut ≡ cut + step [MOD 2 ^ 64] := Nat.mod_modEq _ _
      rw [Nat.succ_mul, Nat.add_comm (i * step), ← Nat.add_assoc]
      exact hnext.add_right _

end Tried

/-- The search tries the cuts in turn, and keeps the smallest layout that it has seen, the first of equal ones. -/
theorem search_tried {layoutAt : Nat → Except WriteError Settled} {step last cut : Nat} {best l : Settled}
    (h : search layoutAt step last cut best = .ok l) (bestCut : Nat) :
    ∃ ts chosen, Tried layoutAt step last cut best.size ts ∧
      ((bestCut, best) :: ts).argmin (fun t => t.2.size) = some (chosen, l) := by
  induction hn : best.size using Nat.strongRecOn generalizing cut best bestCut with
  | ind n ih =>
    rw [search] at h
    split at h
    · rename_i hcut
      obtain ⟨found, hfound, h⟩ := bind_eq_ok.1 h
      split at h
      · rename_i hsmaller
        obtain ⟨ts, chosen, htried, hchosen⟩ := ih found.size (hn ▸ hsmaller) h cut rfl
        have hle := List.le_of_mem_argmin (List.mem_cons_self (a := (cut, found))) hchosen
        refine ⟨(cut, found) :: ts, chosen, .shrink hcut hfound (hn ▸ hsmaller) htried, ?_⟩
        rw [List.argmin_cons, hchosen]
        exact if_pos (Nat.lt_of_le_of_lt hle hsmaller)
      · rename_i hlarger
        obtain rfl := Except.ok.inj h
        refine ⟨[(cut, found)], bestCut, .stop hcut hfound (hn ▸ Nat.le_of_not_lt hlarger), ?_⟩
        rw [List.argmin_cons, List.argmin_singleton]
        exact if_neg hlarger
    · rename_i hend
      obtain rfl := Except.ok.inj h
      exact ⟨[], bestCut, .done hend, List.argmin_singleton⟩

theorem mem_of_mem_candidates {G : Graph} {states : List State} {minInlinks : Nat} {t : State}
    (h : t ∈ candidates G states minInlinks) : t ∈ states := by
  rw [candidates, List.mem_mergeSort] at h
  exact List.mem_of_mem_filter h

/-- How a layout is chosen: the one without moves comes first, then those of the cuts that are tried, and of all these the
smallest is taken, the first of equal ones. -/
structure Searched (s : Subject) (tuning : Tuning) (states : List State) (baseline : Settled)
    (ts : List (Nat × Settled)) (best : Nat × Settled) : Prop where
  baseline_eq : layout s [] = .ok baseline
  untried : candidates s.graph states tuning.minInlinks = [] → ts = []
  tried : let movable := candidates s.graph states tuning.minInlinks
    movable ≠ [] → Tried (fun cut => layout s (movable.take cut)) tuning.cutStep (min tuning.cutEnd movable.length)
      (min tuning.cutStart movable.length) baseline.size ts
  least : ((0, baseline) :: ts).argmin (fun t => t.2.size) = some best

theorem Searched.layout_eq {s : Subject} {tuning : Tuning} {states : List State} {baseline : Settled}
    {ts : List (Nat × Settled)} {best : Nat × Settled} (h : Searched s tuning states baseline ts best) :
    ∀ t ∈ (0, baseline) :: ts, layout s ((candidates s.graph states tuning.minInlinks).take t.1) = .ok t.2 := by
  intro t ht
  rcases List.mem_cons.1 ht with rfl | ht
  · exact h.baseline_eq
  · by_cases hnone : candidates s.graph states tuning.minInlinks = []
    · rw [h.untried hnone] at ht
      cases ht
    · exact (h.tried hnone).layout_eq t ht

theorem searched_of_bestLayout {s : Subject} {tuning : Tuning} {states : List State} {l : Settled}
    (h : bestLayout s tuning states = .ok l) : ∃ baseline ts cut, Searched s tuning states baseline ts (cut, l) := by
  obtain ⟨baseline, hbaseline, h⟩ := bind_eq_ok.1 h
  split at h
  · rename_i hnone
    obtain rfl := Except.ok.inj h
    exact ⟨baseline, [], 0, hbaseline, fun _ => rfl, fun hsome => absurd hnone hsome, List.argmin_singleton⟩
  · rename_i hsome
    obtain ⟨ts, cut, htried, hleast⟩ := search_tried h 0
    exact ⟨baseline, ts, cut, hbaseline, fun hnone => absurd hnone hsome, fun _ => htried, hleast⟩

theorem bestLayout_cases {s : Subject} {tuning : Tuning} {states : List State} {l : Settled}
    (h : bestLayout s tuning states = .ok l) :
    ∃ moved, (∀ t ∈ moved, t ∈ states) ∧ layout s moved = .ok l := by
  obtain ⟨baseline, ts, cut, hsearched⟩ := searched_of_bestLayout h
  exact ⟨_, fun t ht => mem_of_mem_candidates (List.mem_of_mem_take ht),
    hsearched.layout_eq _ (List.argmin_mem hsearched.least)⟩

/-- The address of a place in a layout. -/
def placed (s : Subject) (l : Settled) : Nat → Nat := (s.format l.plan).placed l.pass.offsets

/-- What is read when a layout has been written. -/
def reader (s : Subject) (l : Settled) : Compact :=
  ⟨streamFlags s.count.isSome, s.table.labels.toArray, l.pass.body⟩

theorem numbers_reader (s : Subject) (l : Settled) : (reader s l).flags.numbers = s.count.isSome := by
  show (streamFlags s.count.isSome).numbers = _
  cases s.count.isSome <;> decide

namespace Ready

variable {s : Subject} {l : Settled} (h : Ready s l)

include h

theorem emit_eq : emit s l = .ok l.pass := by
  simp only [emit, h.pass_eq, RowFormat.moved?_self]

theorem laid : Laid (s.format l.plan) l.plan.rows l.pass := RowFormat.laid_of_pass h.pass_eq h.fits

theorem placed_lt {i : Nat} (hi : i < l.plan.rows.length) : placed s l i < 2 ^ 32 := by
  have hfits := h.laid.fits i _ (List.getElem?_eq_getElem hi)
  exact of_decide_eq_true hfits

theorem holds_rootArc : (reader s l).body.Holds 0 (countBytes s.count.isSome 0) ∧
    (reader s l).body.Holds (countBytes s.count.isSome 0).length
      (markedArc s.table epsilonLabel false true false (l.plan.root.elim 0 (placed s l))) := by
  have hopening : l.pass.body.Holds 0 (opening s.table s.count.isSome l.plan.root (placed s l)) := h.laid.holds_opening
  rw [opening, List.append_assoc, Bytes.holds_append, Nat.zero_add] at hopening
  exact hopening

variable (hplan : l.plan.Sound)

include hplan

theorem stands {i : Nat} {r : PlacedRow} (hr : l.plan.rows[i]? = some r) :
    Stands l.pass.body l.plan.rows.length (placed s l) i (countBytes s.count.isSome r.count)
      (r.arcs.flatMap (arcBytes s.table (placed s l) i)) := by
  have hne := (hplan.run r (List.mem_of_getElem? hr)).ne_nil
  apply h.laid.stands hr rfl (flatMap_arcBytes_ne_nil s.table (placed s l) i hne)
  show opening s.table s.count.isSome l.plan.root (placed s l) ≠ []
  exact List.append_ne_nil_of_right_ne_nil _ (VCode.code_ne_nil _)

theorem root_sound : PlacedArc.Sound (placed s l) ⟨epsilonLabel, false, true, l.plan.root⟩ := by
  intro i hi
  have hlt := hplan.root_lt i hi
  exact ⟨(h.stands hplan (List.getElem?_eq_getElem hlt)).pos, h.placed_lt hlt⟩

theorem arcs_sound {r : PlacedRow} (hr : r ∈ l.plan.rows) {a : PlacedArc} (ha : a ∈ r.arcs) : a.Sound (placed s l) := by
  intro i hi
  have hlt := hplan.target_lt r hr a ha i hi
  exact ⟨(h.stands hplan (List.getElem?_eq_getElem hlt)).pos, h.placed_lt hlt⟩

end Ready

theorem length_countBytes_lt (numbers : Bool) {n : Nat} (h : n < 2 ^ 32) : (countBytes numbers n).length < 2 ^ 32 := by
  have hle := VCode.length_code_le_maxLength h
  rw [VCode.maxLength] at hle
  cases numbers with
  | false =>
    show 0 < 2 ^ 32
    decide
  | true =>
    show (VCode.code n).length < 2 ^ 32
    omega

theorem firstArc_eq {s : Subject} {l : Settled} {position : UInt32} {n : Nat}
    (h : l.pass.body.Holds position.toNat (countBytes s.count.isSome n)) :
    (reader s l).automaton.firstArc ⟨position⟩ =
      .ok ⟨UInt32.ofNat (position.toNat + (countBytes s.count.isSome n).length)⟩ := by
  show (reader s l).firstArc ⟨position⟩ = _
  rw [Compact.firstArc, numbers_reader]
  rw [countBytes] at h ⊢
  cases hcount : s.count.isSome with
  | false => simp
  | true =>
    rw [hcount, if_pos rfl] at h
    have hskip : VCode.skip (reader s l).body position.toNat = .ok (position.toNat + (VCode.code n).length) :=
      VCode.skip_eq h
    rw [if_pos rfl, if_pos rfl, hskip]
    rfl

namespace Ready

variable {s : Subject} {l : Settled} (h : Ready s l) (hplan : l.plan.Sound)

include h hplan

theorem storedCount_eq (hcount : s.count.isSome = true) {i : Nat} {r : PlacedRow} (hr : l.plan.rows[i]? = some r)
    (hroom : r.count < 2 ^ 32) :
    (reader s l).automaton.storedCount ⟨UInt32.ofNat (placed s l i)⟩ = .ok (some r.count) := by
  have hlt := h.placed_lt (List.getElem?_eq_some_iff.1 hr).1
  have hstate : (UInt32.ofNat (placed s l i)).toNat = placed s l i := UInt32.toNat_ofNat_of_lt' hlt
  have hholds := (h.stands hplan hr).holds_head
  rw [hcount, countBytes, if_pos rfl] at hholds
  have hvalue : VCode.valueAt (reader s l).body (placed s l i) = .ok (UInt32.ofNat r.count) :=
    VCode.valueAt_eq hholds hroom
  show (reader s l).storedCount _ = _
  rw [Compact.storedCount, numbers_reader, hcount, if_pos rfl, hstate, hvalue, ok_bind, UInt32.toNat_ofNat_of_lt' hroom]
  rfl

variable (htable : (reader s l).Holds s.table)

include htable

theorem row_eq (hsize : l.pass.body.size ≤ 2 ^ 32) {i : Nat} {r : PlacedRow} (hr : l.plan.rows[i]? = some r) :
    (reader s l).automaton.row ⟨UInt32.ofNat (placed s l i)⟩ =
      .ok (r.arcs.map (PlacedArc.transition (placed s l))) := by
  have hstands := h.stands hplan hr
  have hle := hstands.le_size
  have hmem := List.mem_of_getElem? hr
  have hlt := h.placed_lt (List.getElem?_eq_some_iff.1 hr).1
  have hpos := List.length_pos_iff.2
    (flatMap_arcBytes_ne_nil s.table (placed s l) i (hplan.run r hmem).ne_nil)
  have hstate : (UInt32.ofNat (placed s l i)).toNat = placed s l i := UInt32.toNat_ofNat_of_lt' hlt
  have harcLt : placed s l i + (countBytes s.count.isSome r.count).length < 2 ^ 32 := by omega
  have harc : (UInt32.ofNat (placed s l i + (countBytes s.count.isSome r.count).length)).toNat =
      placed s l i + (countBytes s.count.isSome r.count).length := UInt32.toNat_ofNat_of_lt' harcLt
  have hfirst := hstands.holds_head
  rw [← hstate] at hfirst
  have hfirstArc := firstArc_eq hfirst
  rw [hstate] at hfirstArc
  refine Automaton.row_eq_ok.2 ⟨_, hfirstArc, ?_⟩
  refine Compact.carries_of_holds htable i (hplan.run r hmem) (fun a ha => h.arcs_sound hplan hmem ha)
    ?_ ?_ ?_
  · intro a ha hshort
    rw [isShort, beq_iff_eq] at hshort
    rw [harc]
    exact hstands.next (hplan.target_lt r hmem a ha _ hshort)
  · rw [harc]
    exact hstands.holds_arcs
  · rw [harc]
    exact Nat.le_trans hle hsize

theorem root_eq : (reader s l).automaton.root =
    .ok (l.plan.root.map fun i => ⟨UInt32.ofNat (placed s l i)⟩) := by
  obtain ⟨hcount, harc⟩ := h.holds_rootArc
  have hfirst : (reader s l).automaton.firstArc ⟨0⟩ =
      .ok ⟨UInt32.ofNat (0 + (countBytes s.count.isSome 0).length)⟩ := firstArc_eq hcount
  have hlength : (UInt32.ofNat (0 + (countBytes s.count.isSome 0).length)).toNat =
      (countBytes s.count.isSome 0).length := by
    rw [Nat.zero_add]
    exact UInt32.toNat_ofNat_of_lt' (length_countBytes_lt _ (by decide))
  have hsound := h.root_sound hplan
  have htarget := Compact.target_eq htable harc hlength rfl hsound.target_lt
  show (do (reader s l).automaton.target (← (reader s l).automaton.firstArc ⟨0⟩)) = _
  rw [hfirst, ok_bind, htarget, hsound.target_eq]
  rfl

/-- A body that ends at most at 2^32 is read back as what the plan says. -/
theorem readBack (hsize : l.pass.body.size ≤ 2 ^ 32) : l.plan.ReadBack (placed s l) (reader s l).automaton := by
  refine ⟨h.root_eq hplan htable, fun i r hr => h.row_eq hplan htable hsize hr, ?_⟩
  refine h.laid.injective ?_ fun i hi => h.placed_lt hi
  intro i r hr
  have hne := (hplan.run r (List.mem_of_getElem? hr)).ne_nil
  exact List.append_ne_nil_of_right_ne_nil _ (flatMap_arcBytes_ne_nil s.table _ i hne)

theorem checkEpsilon_eq : (reader s l).checkEpsilon = .ok () := by
  obtain ⟨hcount, harc⟩ := h.holds_rootArc
  have hsound := h.root_sound hplan
  obtain ⟨m, hm, -, -, hnext, hindex⟩ := Compact.marks_eq htable harc
  obtain ⟨b, hb, hbm⟩ := Compact.getElem?_of_marks hm
  have hoffset := Compact.addressOffset_eq hindex (marks false true false)
  have haddress := (Bytes.holds_append.1 harc).2
  have hdecode := VCode.decode_eq haddress hsound.target_lt
  rw [← hoffset] at hdecode
  have hstart : (if (reader s l).flags.numbers = true then Prod.snd <$> VCode.decode (reader s l).body 0 else pure 0) =
      (.ok (countBytes s.count.isSome 0).length : Except StreamError Nat) := by
    rw [numbers_reader]
    rw [countBytes] at hcount ⊢
    cases hnumbers : s.count.isSome with
    | false => rfl
    | true =>
      rw [hnumbers, if_pos rfl] at hcount
      rw [if_pos rfl, if_pos rfl, VCode.decode_eq hcount (by decide)]
      rfl
  exact Compact.checkEpsilon_eq hstart hb (by rw [hbm, hnext]) (by rw [hbm]; exact hdecode)

theorem ofBytes_eq : Compact.ofBytes (head s ++ l.pass.body.toList).toArray = .ok (reader s l) := by
  obtain ⟨high, low, hbig, hmask⟩ : ∃ high low, big 2 (streamFlags s.count.isSome).mask = [high, low] ∧
      Flags.ofMask (ofBig [high, low]) = streamFlags s.count.isSome := by
    cases s.count.isSome with
    | false => exact ⟨_, _, rfl, by decide⟩
    | true => exact ⟨_, _, rfl, by decide⟩
  have hreader : (⟨Flags.ofMask (ofBig [high, low]), s.table.labels.toArray, l.pass.body.toList.toArray⟩ : Compact) =
      reader s l := by
    rw [hmask]
    rfl
  have hlist : head s ++ l.pass.body.toList = Header.toBytes ⟨Compact.version⟩ ++
      high :: low :: UInt8.ofNat s.table.labels.length :: (s.table.labels ++ l.pass.body.toList) := by
    rw [head, hbig]
    rfl
  have hne : l.pass.body.toList ≠ [] := by
    have hle : _ ≤ l.pass.body.size := h.holds_rootArc.2.le_size (markedArc_ne_nil _ _ _ _ _ _)
    have hpos := List.length_pos_iff.2 (markedArc_ne_nil s.table epsilonLabel false true false
      (l.plan.root.elim 0 (placed s l)))
    rw [← List.length_pos_iff, Array.length_toList]
    omega
  rw [hlist, ← hreader]
  apply Compact.ofBytes_eq htable.small hne
  rw [hreader]
  exact h.checkEpsilon_eq hplan htable

end Ready

theorem bytes_stages (s : Subject) (p : Pass) : (stages s p).script.bytes = head s ++ p.body.toList :=
  Stages.bytes_script _

theorem written_stages (s : Subject) (p : Pass) : (stages s p).written = (head s).length + p.size := by
  rw [(stages s p).written_eq, p.size_eq, ← Array.length_toList]
  rfl

theorem writeSubject_eq {w : CompactWriter} {s : Subject} {states : List State} {l : Settled}
    (h : bestLayout s w.tuning states = .ok l) :
    w.writeSubject s states = (stages s l.pass).script := by
  obtain ⟨moved, -, hlayout⟩ := bestLayout_cases h
  obtain ⟨-, hready⟩ := layout_cases hlayout
  simp only [writeSubject, h, hready.emit_eq]

theorem bestLayout_of_writeSubject {w : CompactWriter} {s : Subject} {states : List State} {n : Nat}
    (h : (w.writeSubject s states).result = .ok n) : ∃ l, bestLayout s w.tuning states = .ok l := by
  cases hl : bestLayout s w.tuning states with
  | error e => simp [writeSubject, hl, Script.failed] at h
  | ok l => exact ⟨l, rfl⟩

/-- What has been written to the end is a layout of the states, some of them moved. -/
theorem writeSubject_cases {w : CompactWriter} {s : Subject} {states : List State} {n : Nat}
    (h : (w.writeSubject s states).result = .ok n) :
    ∃ moved l, (∀ t ∈ moved, t ∈ states) ∧ l.plan = s.plan (s.graph.linearize moved) ∧ Ready s l ∧
      w.writeSubject s states = (stages s l.pass).script := by
  obtain ⟨l, hl⟩ := bestLayout_of_writeSubject h
  obtain ⟨moved, hmoved, hlayout⟩ := bestLayout_cases hl
  obtain ⟨hplan, hready⟩ := layout_cases hlayout
  exact ⟨moved, l, hmoved, hplan, hready, writeSubject_eq hl⟩

section

variable {A : Automaton} {states : List State} (hstates : A.graph.Ordered states)

include hstates

/-- The stream of an automaton is accepted, and if its body ends at most at 2^32 it restores the automaton. -/
theorem writeSubject_restored (hread : A.Readable) {w : CompactWriter} (labels : List UInt8)
    (count : Option (State → Nat)) {n : Nat}
    (hresult : (w.writeSubject ⟨A.graph, .ofLabels labels, count⟩ states).result = .ok n) :
    let script := w.writeSubject ⟨A.graph, .ofLabels labels, count⟩ states
    n = script.bytes.length ∧ ∃ c, Compact.ofBytes script.bytes.toArray = .ok c ∧
      (c.body.size ≤ 2 ^ 32 → c.automaton.Readable ∧ ∃ f, A.graph.Iso c.automaton.graph f ∧
        ∀ k ∈ count, ∀ s, A.graph.Reachable s → k s < 2 ^ 32 → c.automaton.storedCount (f s) = .ok (some (k s))) := by
  intro script
  obtain ⟨moved, l, hmoved, hplan, h, hscript⟩ := writeSubject_cases hresult
  have horder : A.graph.Ordered (A.graph.linearize moved) :=
    Graph.linearize_ordered fun t ht => (hstates.mem_iff t).1 (hmoved t ht)
  have hsound : l.plan.Sound := by
    rw [hplan]
    exact hread.plan_sound horder _
  have htable : (reader ⟨A.graph, .ofLabels labels, count⟩ l).Holds (.ofLabels labels) :=
    ⟨rfl, LabelTable.length_ofLabels_le labels⟩
  have hbytes : script.bytes = head ⟨A.graph, .ofLabels labels, count⟩ ++ l.pass.body.toList := by
    rw [show script = _ from hscript, bytes_stages]
  refine ⟨?_, reader _ l, by rw [hbytes, h.ofBytes_eq hsound htable], ?_⟩
  · rw [hscript, Stages.result_script] at hresult
    rw [show script = _ from hscript]
    exact (Except.ok.inj hresult).symm
  · intro hsize
    have hback := h.readBack hsound htable hsize
    rw [hplan] at hback
    obtain ⟨hiso, hreadable⟩ := hback.iso horder
    refine ⟨hreadable, _, hiso, ?_⟩
    intro k hk s hs hroom
    obtain rfl : count = some k := hk
    have hrow : l.plan.rows[Graph.placeIn (A.graph.linearize moved) s]? =
        some ⟨k s, placeArcs (Graph.placeIn (A.graph.linearize moved)) (A.graph.row s)⟩ := by
      rw [hplan]
      exact Plan.row_of_reachable horder hs
    exact h.storedCount_eq hsound rfl hrow hroom

end

/-- What is written: the reachable states, with their counts if these are asked for. -/
theorem script_eq (w : CompactWriter) {A : Automaton} (hread : A.Readable)
    (hnumbers : w.flags.numbers = true → A.graph.Acyclic) : ∃ states count, A.graph.Ordered states ∧
    w.script A = .ok (match unsupported? .compact supported w.flags with
      | some e => .failed [] e
      | none => w.writeSubject ⟨A.graph, .ofLabels (A.graph.labels states), count⟩ states) ∧
    (w.flags.numbers = true → ∃ counts, A.counts = .ok counts ∧ Counted A.graph counts A.graph.Reachable ∧
      count = some (counts.getD · 0)) := by
  obtain ⟨states, hsurvey, hstates⟩ := hread.survey
  rw [script, hsurvey]
  cases hflag : w.flags.numbers with
  | false =>
    refine ⟨states, none, hstates.toOrdered, ?_, by simp⟩
    cases unsupported? .compact supported w.flags <;> rfl
  | true =>
    obtain ⟨counts, hcounts, hcounted⟩ := hread.counts (hnumbers hflag)
    refine ⟨states, some (counts.getD · 0), hstates.toOrdered, ?_, fun _ => ⟨counts, hcounts, hcounted, rfl⟩⟩
    rw [hcounts]
    cases unsupported? .compact supported w.flags <;> rfl

/-- What a script hands over that ends well is accepted as a stream, and restores the automaton if offsets reach all of it. -/
theorem stream_of_script {w : CompactWriter} {A : Automaton} (hread : A.Readable)
    (hnumbers : w.flags.numbers = true → A.graph.Acyclic) {script : Script} (hscript : w.script A = .ok script) {n : Nat}
    (hresult : script.result = .ok n) : n = script.bytes.length ∧ ∃ c, Compact.ofBytes script.bytes.toArray = .ok c ∧
      (c.body.size ≤ 2 ^ 32 → A.Restored c.automaton w.flags.numbers) := by
  obtain ⟨states, count, hstates, hok, hcount⟩ := w.script_eq hread hnumbers
  obtain rfl := Except.ok.inj (hok.symm.trans hscript)
  cases hflags : unsupported? .compact supported w.flags with
  | some e =>
    rw [hflags] at hresult
    cases hresult
  | none =>
    rw [hflags] at hresult
    obtain ⟨hn, c, hc, hrestored⟩ := writeSubject_restored hstates hread (A.graph.labels states) count hresult
    refine ⟨hn, c, hc, ?_⟩
    intro hsize
    obtain ⟨hreadable, f, hiso, hstored⟩ := hrestored hsize
    refine ⟨hreadable, f, hiso, ?_⟩
    intro hflag
    obtain ⟨counts, hcounts, hcounted, hsome⟩ := hcount hflag
    refine ⟨counts, hcounts, ?_⟩
    intro s hs
    have hle := hcounted.le_maxCount s
    rw [maxCount] at hle
    exact ⟨_, hcounted.getElem? hs, hstored _ hsome s hs (by omega)⟩

/-- Whenever an output has taken everything, what it has taken is accepted as a stream. As long as the body ends at most
at 2^32, behind which no arc can be referred to, what is read has the same shape, and the count of every state. -/
theorem delivered_restored (w : CompactWriter) {A : Automaton} (hread : A.Readable)
    (hnumbers : w.flags.numbers = true → A.graph.Acyclic) :
    ∃ script, w.script A = .ok script ∧
      ∀ sink n, (script.deliverTo sink).result = .ok n → n = (script.deliverTo sink).bytes.length ∧
        ∃ c, Compact.ofBytes (script.deliverTo sink).bytes.toArray = .ok c ∧
          (c.body.size ≤ 2 ^ 32 → A.Restored c.automaton w.flags.numbers) := by
  obtain ⟨_, _, -, hscript, -⟩ := w.script_eq hread hnumbers
  refine ⟨_, hscript, ?_⟩
  intro sink n h
  obtain ⟨hresult, hbytes⟩ := deliver_ok h
  rw [Script.deliverTo, hbytes]
  exact stream_of_script hread hnumbers hscript hresult

theorem delivered_restored_built : ∃ b script c, Builder.build [[97, 99], [98, 99]] = .ok b ∧
    ({ flags := Flags.ofList [.numbers] } : CompactWriter).script b.automaton = .ok script ∧
    (script.deliverTo .unlimited).result = .ok 22 ∧
    Compact.ofBytes (script.deliverTo .unlimited).bytes.toArray = .ok c ∧ b.automaton.Restored c.automaton true := by
  have hrun : (do
      let b ← (Builder.build [[97, 99], [98, 99]]).toOption
      let script ← (({ flags := Flags.ofList [.numbers] } : CompactWriter).script b.automaton).toOption
      let c ← (Compact.ofBytes (script.deliverTo .unlimited).bytes.toArray).toOption
      return ((script.deliverTo .unlimited).result, c.body.size)) = some (.ok 22, 10) := by cbv
  cases hok : Builder.build [[97, 99], [98, 99]] with
  | error e => simp [hok, Except.toOption] at hrun
  | ok b =>
    obtain ⟨p, root, rfl, h⟩ := Builder.finished_of_build hok
    obtain ⟨script, hscript, hdelivered⟩ :=
      delivered_restored { flags := Flags.ofList [.numbers] } h.readable (fun _ => h.acyclic)
    rw [Pool.reader] at hscript
    cases hc : Compact.ofBytes (script.deliverTo .unlimited).bytes.toArray with
    | error e => simp [hok, hscript, hc, Except.toOption] at hrun
    | ok c =>
      obtain ⟨hresult, hsize⟩ : (script.deliverTo .unlimited).result = .ok 22 ∧ c.body.size = 10 := by
        simpa [hok, hscript, hc, Except.toOption] using hrun
      obtain ⟨-, c', hc', hrestored⟩ := hdelivered .unlimited 22 hresult
      obtain rfl : c = c' := Except.ok.inj (hc.symm.trans hc')
      exact ⟨_, script, c, rfl, hscript, hresult, hc, hrestored (by omega)⟩

end CompactWriter

end WordAutomata
