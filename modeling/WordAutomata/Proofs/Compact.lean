import WordAutomata.Proofs.Plan
import WordAutomata.Proofs.VCode
import WordAutomata.Write.Compact

namespace WordAutomata

namespace LabelTable

theorem length_ofLabels_le (labels : List UInt8) : (ofLabels labels).labels.length ≤ 32 := by
  have hle := List.length_take_le room (ranking labels)
  have hroom : room = 31 := rfl
  simp only [ofLabels, List.length_cons, List.length_reverse, List.length_map]
  omega

theorem getElem?_index {t : LabelTable} {c : UInt8} (h : 0 < t.index c) : t.labels[t.index c]? = some c := by
  rw [index] at h ⊢
  cases hindex : t.labels.tail.idxOf? c with
  | none => simp [hindex] at h
  | some i =>
    obtain ⟨hi, hlabel, -⟩ := List.idxOf?_eq_some_iff.1 hindex
    show t.labels[i + 1]? = some c
    rw [← List.getElem?_tail, List.getElem?_eq_getElem hi, hlabel]

theorem index_lt {t : LabelTable} (h : t.labels.length ≤ 32) (c : UInt8) : t.index c < 32 := by
  by_cases hzero : t.index c = 0
  · omega
  · have hget := getElem?_index (Nat.pos_of_ne_zero hzero)
    have hlt := (List.getElem?_eq_some_iff.1 hget).1
    omega

end LabelTable

namespace CompactWriter

theorem testBit_marks {index : Nat} (h : index < 32) (isFinal isLast isNext : Bool) :
    (UInt8.ofNat (marks isFinal isLast isNext + index)).toNat.testBit 5 = isFinal ∧
      (UInt8.ofNat (marks isFinal isLast isNext + index)).toNat.testBit 6 = isLast ∧
      (UInt8.ofNat (marks isFinal isLast isNext + index)).toNat.testBit 7 = isNext ∧
      (UInt8.ofNat (marks isFinal isLast isNext + index)).toNat % 32 = index := by
  obtain ⟨q, hq, hmarks⟩ : ∃ q < 8, marks isFinal isLast isNext = 2 ^ 5 * q ∧
      q.testBit 0 = isFinal ∧ q.testBit 1 = isLast ∧ q.testBit 2 = isNext := by
    cases isFinal <;> cases isLast <;> cases isNext <;> decide
  obtain ⟨hmarks, hfinal, hlast, hnext⟩ := hmarks
  have hnat : (UInt8.ofNat (marks isFinal isLast isNext + index)).toNat = 2 ^ 5 * q + index := by
    rw [UInt8.toNat_ofNat', hmarks]
    omega
  have hbit (i : Nat) : (2 ^ 5 * q + index).testBit (5 + i) = q.testBit i := by
    rw [Nat.testBit_two_pow_mul_add q h, if_neg (by omega), Nat.add_sub_cancel_left]
  rw [hnat]
  exact ⟨(hbit 0).trans hfinal, (hbit 1).trans hlast, (hbit 2).trans hnext, by omega⟩

/-- An arc with or without an address. -/
def markedArc (table : LabelTable) (label : UInt8) (isFinal isLast isNext : Bool) (address : Nat) : List UInt8 :=
  labelBytes table label (marks isFinal isLast isNext) ++ if isNext then [] else VCode.code address

theorem arcBytes_eq (table : LabelTable) (address : Nat → Nat) (place : Nat) (a : PlacedArc) :
    arcBytes table address place a =
      markedArc table a.label a.isFinal a.isLast (isShort place a) (a.target.elim 0 address) := by
  rw [arcBytes, markedArc]
  cases isShort place a <;> simp

theorem markedArc_ne_nil (table : LabelTable) (label : UInt8) (isFinal isLast isNext : Bool) (address : Nat) :
    markedArc table label isFinal isLast isNext address ≠ [] := by
  rw [markedArc, labelBytes]
  split <;> simp

theorem flatMap_arcBytes_ne_nil (table : LabelTable) (address : Nat → Nat) (place : Nat) {as : List PlacedArc}
    (h : as ≠ []) : as.flatMap (arcBytes table address place) ≠ [] := by
  obtain ⟨a, as, rfl⟩ := List.exists_cons_of_ne_nil h
  rw [List.flatMap_cons, arcBytes_eq]
  exact List.append_ne_nil_of_left_ne_nil (markedArc_ne_nil _ _ _ _ _ _) _

end CompactWriter

namespace Compact

open CompactWriter

/-- The table that an automaton was written with. -/
structure Holds (c : Compact) (table : LabelTable) : Prop where
  labels : c.labels.toList = table.labels
  small : table.labels.length ≤ 32

theorem getElem?_of_marks {c : Compact} {arc m : Nat} (h : c.marks arc = .ok m) :
    ∃ b, c.body[arc]? = some b ∧ b.toNat = m := by
  obtain ⟨b, hb, hm⟩ := bind_eq_ok.1 h
  rw [Bytes.byte] at hb
  split at hb
  · rename_i hlt
    refine ⟨b, ?_, Except.ok.inj hm⟩
    rw [Array.getElem?_eq_getElem hlt, Except.ok.inj hb]
  · cases hb

theorem checkEpsilon_eq {c : Compact} {arc : Nat} {b : UInt8} {code : Nat × Nat}
    (harc : (if c.flags.numbers then Prod.snd <$> VCode.decode c.body 0 else pure 0) = .ok arc)
    (hb : c.body[arc]? = some b) (hnext : b.toNat.testBit 7 = false)
    (hcode : VCode.decode c.body (arc + addressOffset b.toNat) = .ok code) : c.checkEpsilon = .ok () := by
  rw [checkEpsilon]
  split at harc
  · rename_i hnumbers
    rw [if_pos hnumbers, harc]
    simp [ok_bind, hb, hnext, hcode]
  · rename_i hnumbers
    obtain rfl := Except.ok.inj harc
    rw [Nat.zero_add] at hcode
    rw [if_neg hnumbers]
    simp [pure_eq_ok, ok_bind, hb, hnext, hcode]

theorem ofBytes_eq {high low : UInt8} {labels body : List UInt8} (hsmall : labels.length ≤ maxLabels) (hne : body ≠ [])
    (h : checkEpsilon ⟨Flags.ofMask (ofBig [high, low]), labels.toArray, body.toArray⟩ = .ok ()) :
    ofBytes (Header.toBytes ⟨version⟩ ++ high :: low :: UInt8.ofNat labels.length :: (labels ++ body)).toArray =
      .ok ⟨Flags.ofMask (ofBig [high, low]), labels.toArray, body.toArray⟩ := by
  have hentries : (UInt8.ofNat labels.length).toNat = labels.length := by
    rw [maxLabels] at hsmall
    rw [UInt8.toNat_ofNat']
    omega
  have hlist : Header.toBytes ⟨version⟩ ++ high :: low :: UInt8.ofNat labels.length :: (labels ++ body) =
    0x5c :: 0x66 :: 0x73 :: 0x61 :: version :: high :: low :: UInt8.ofNat labels.length :: (labels ++ body) := rfl
  have hsize (n : Nat) : labels.length + n + 1 + 1 + 1 + 1 + 1 + 1 + 1 + 1 = 8 + labels.length + n := by omega
  have hdrop : (0x5c :: 0x66 :: 0x73 :: 0x61 :: version :: high :: low :: UInt8.ofNat labels.length ::
      (labels ++ body)).drop (8 + labels.length) = body := by
    rw [← List.drop_drop]
    exact List.drop_left
  have hpos := List.length_pos_iff.2 hne
  have hhead : 8 ≤ 8 + labels.length + body.length := by omega
  have hbody : ¬8 + labels.length + body.length ≤ 8 + labels.length := by omega
  rw [ofBytes, Header.parse_toBytes, ok_bind, hlist]
  simp [tableOffset, Header.size, hentries, Nat.not_lt.2 hsmall, hsize, hdrop, hhead, hbody, h]

theorem addressOffset_eq {table : LabelTable} {label : UInt8} {m : Nat} (hm : labelIndex m = table.index label)
    (marks : Nat) : addressOffset m = (labelBytes table label marks).length := by
  rw [addressOffset, hm, labelBytes]
  by_cases hzero : table.index label = 0
  · simp [hzero]
  · simp [hzero, Nat.pos_of_ne_zero hzero]

section

variable {c : Compact} {table : LabelTable} (htable : c.Holds table) {arc : Nat} {label : UInt8}
  {isFinal isLast isNext : Bool} {address : Nat}
  (h : c.body.Holds arc (markedArc table label isFinal isLast isNext address))

include htable h

theorem marks_eq : ∃ m, c.marks arc = .ok m ∧ m.testBit 5 = isFinal ∧ m.testBit 6 = isLast ∧ m.testBit 7 = isNext ∧
    labelIndex m = table.index label := by
  have hindex := LabelTable.index_lt htable.small label
  obtain ⟨hlabel, -⟩ := Bytes.holds_append.1 h
  rw [labelBytes] at hlabel
  split at hlabel
  · obtain ⟨hfinal, hlast, hnext, hmod⟩ := testBit_marks hindex isFinal isLast isNext
    exact ⟨_, by rw [marks, Bytes.byte_eq hlabel]; rfl, hfinal, hlast, hnext, hmod⟩
  · rename_i hzero
    obtain ⟨hfinal, hlast, hnext, hmod⟩ := testBit_marks (Nat.zero_lt_succ 31) isFinal isLast isNext
    exact ⟨_, by rw [marks, Bytes.byte_eq hlabel]; rfl, hfinal, hlast, hnext, hmod.trans (by omega)⟩

theorem label_eq {arc' : UInt32} (harc : arc'.toNat = arc) : c.automaton.label ⟨arc'⟩ = .ok label := by
  obtain ⟨m, hm, -, -, -, hindex⟩ := marks_eq htable h
  obtain ⟨hlabel, -⟩ := Bytes.holds_append.1 h
  show c.label ⟨arc'⟩ = _
  rw [Compact.label, harc, hm, ok_bind, hindex]
  by_cases hzero : table.index label = 0
  · rw [labelBytes, if_neg (by omega)] at hlabel
    rw [if_pos hzero]
    exact Bytes.byte_eq (Bytes.holds_cons.1 hlabel).2
  · have hget := LabelTable.getElem?_index (Nat.pos_of_ne_zero hzero)
    rw [← htable.labels, Array.getElem?_toList] at hget
    rw [if_neg hzero, hget]
    rfl

theorem isFinal_eq {arc' : UInt32} (harc : arc'.toNat = arc) : c.automaton.isFinal ⟨arc'⟩ = .ok isFinal := by
  obtain ⟨m, hm, hfinal, -⟩ := marks_eq htable h
  show c.isFinal ⟨arc'⟩ = _
  rw [Compact.isFinal, harc, hm, ok_bind, hfinal]
  rfl

theorem behind_eq :
    c.behind arc = .ok (arc + (markedArc table label isFinal isLast isNext address).length) := by
  obtain ⟨m, hm, -, -, hnext, hindex⟩ := marks_eq htable h
  have hoffset := addressOffset_eq hindex (CompactWriter.marks isFinal isLast isNext)
  have haddress := (Bytes.holds_append.1 h).2
  rw [behind, hm, ok_bind, hnext, hoffset, markedArc, List.length_append, ← Nat.add_assoc]
  cases isNext with
  | true => rfl
  | false => exact VCode.skip_eq haddress

theorem nextArc_eq {arc' : UInt32} (harc : arc'.toNat = arc)
    (hsmall : isLast = false → arc + (markedArc table label isFinal isLast isNext address).length < 2 ^ 32) :
    c.automaton.nextArc ⟨arc'⟩ = .ok (if isLast then none
      else some ⟨UInt32.ofNat (arc + (markedArc table label isFinal isLast isNext address).length)⟩) := by
  obtain ⟨m, hm, -, hlast, -⟩ := marks_eq htable h
  show c.nextArc ⟨arc'⟩ = _
  rw [Compact.nextArc, harc, hm, ok_bind, hlast, behind_eq htable h]
  cases isLast with
  | true => rfl
  | false =>
    simp only [ok_bind]
    rw [if_pos (show _ < 1 <<< 32 from hsmall rfl)]
    rfl

theorem target_eq {arc' : UInt32} (harc : arc'.toNat = arc) (hnext : isNext = false) (hsmall : address < 2 ^ 32) :
    c.automaton.target ⟨arc'⟩ =
      .ok (if UInt32.ofNat address = 0 then none else some ⟨UInt32.ofNat address⟩) := by
  obtain ⟨m, hm, -, -, hbit, hindex⟩ := marks_eq htable h
  have hoffset := addressOffset_eq hindex (CompactWriter.marks isFinal isLast isNext)
  have haddress := (Bytes.holds_append.1 h).2
  rw [hnext, if_neg (by decide), ← hnext] at haddress
  show c.target ⟨arc'⟩ = _
  rw [target, harc, hm, ok_bind, hbit, hnext, if_neg (by decide), hoffset, VCode.valueAt_eq haddress hsmall]
  rfl

/-- An arc without an address leads to what stands behind its state. -/
theorem target_next {arc' : UInt32} (harc : arc'.toNat = arc) (hnext : isNext = true) {stop : Nat}
    (hstop : c.behindState arc = .ok stop) :
    c.automaton.target ⟨arc'⟩ = .ok (if UInt32.ofNat stop = 0 then none else some ⟨UInt32.ofNat stop⟩) := by
  obtain ⟨m, hm, -, -, hbit, -⟩ := marks_eq htable h
  show c.target ⟨arc'⟩ = _
  rw [target, harc, hm, ok_bind, hbit, hnext, if_pos rfl, hstop]
  rfl

end

section

variable {c : Compact} {table : LabelTable} (htable : c.Holds table) {address : Nat → Nat} {place : Nat}

include htable

theorem behindState_eq {as : List PlacedArc} (hrun : PlacedArc.Run as) {arc : Nat}
    (h : c.body.Holds arc (as.flatMap (arcBytes table address place))) :
    c.behindState arc = .ok (arc + (as.flatMap (arcBytes table address place)).length) := by
  induction hrun generalizing arc with
  | @last a hlast =>
    rw [List.flatMap_singleton, arcBytes_eq] at h ⊢
    obtain ⟨m, hm, -, hbit, -⟩ := marks_eq htable h
    rw [behindState, hm, ok_bind, hbit.trans hlast, if_pos rfl, behind_eq htable h]
  | @more a as hlast hrun ih =>
    rw [List.flatMap_cons, Bytes.holds_append, arcBytes_eq] at h
    obtain ⟨hfirst, hrest⟩ := h
    obtain ⟨m, hm, -, hbit, -⟩ := marks_eq htable hfirst
    rw [behindState, hm, ok_bind, hbit.trans hlast, if_neg (by decide)]
    split
    · rename_i f hf
      rw [behind_eq htable hfirst] at hf
      cases hf
    · rename_i next hnext
      obtain rfl := Except.ok.inj ((behind_eq htable hfirst).symm.trans hnext)
      rw [ih hrest, List.flatMap_cons, List.length_append, arcBytes_eq, Nat.add_assoc]

theorem transition_eq {as : List PlacedArc} {a : PlacedArc} (hrun : PlacedArc.Run (a :: as)) (hsound : a.Sound address)
    {arc : UInt32}
    (hnext : isShort place a = true →
      address (place + 1) = arc.toNat + ((a :: as).flatMap (arcBytes table address place)).length)
    (h : c.body.Holds arc.toNat ((a :: as).flatMap (arcBytes table address place))) :
    c.automaton.transition ⟨arc⟩ = .ok (a.transition address) := by
  have hstate := behindState_eq htable hrun h
  rw [List.flatMap_cons, Bytes.holds_append, arcBytes_eq] at h
  refine Automaton.transition_eq_ok.2 ⟨label_eq htable h.1 rfl, isFinal_eq htable h.1 rfl, ?_⟩
  rw [← hsound.target_eq]
  cases hshort : isShort place a with
  | true =>
    have htarget : a.target = some (place + 1) := by
      rw [isShort, beq_iff_eq] at hshort
      exact hshort
    rw [target_next htable h.1 rfl hshort hstate, ← hnext hshort, htarget]
    rfl
  | false => exact target_eq htable h.1 rfl hshort hsound.target_lt

/-- The arcs of a state are read back one by one; those without an address lead to what stands behind all of them. -/
theorem carries_of_holds (place : Nat) {as : List PlacedArc} (hrun : PlacedArc.Run as) (hsound : ∀ a ∈ as, a.Sound address)
    {arc : UInt32}
    (hnext : ∀ a ∈ as, isShort place a = true →
      address (place + 1) = arc.toNat + (as.flatMap (arcBytes table address place)).length)
    (h : c.body.Holds arc.toNat (as.flatMap (arcBytes table address place)))
    (hsmall : arc.toNat + (as.flatMap (arcBytes table address place)).length ≤ 2 ^ 32) :
    c.automaton.Carries ⟨arc⟩ (as.map (PlacedArc.transition address)) := by
  induction hrun generalizing arc with
  | @last a hlast =>
    have htransition := transition_eq htable (.last hlast) (hsound a (by simp)) (hnext a (by simp)) h
    rw [List.flatMap_singleton, arcBytes_eq] at h
    have hnone := nextArc_eq htable h rfl (by simp [hlast])
    rw [hlast, if_pos rfl] at hnone
    exact .last hnone htransition
  | @more a as hlast hrun ih =>
    -- The end of the state stays where it is while the arcs before it are passed, so `hnext` goes over to the rest.
    have htransition := transition_eq htable (.more hlast hrun) (hsound a (by simp)) (hnext a (by simp)) h
    have hpos := List.length_pos_iff.2 (flatMap_arcBytes_ne_nil table address place hrun.ne_nil)
    rw [List.flatMap_cons, List.length_append] at hsmall hnext
    rw [List.flatMap_cons, Bytes.holds_append] at h
    obtain ⟨hfirst, hrest⟩ := h
    have hlt : arc.toNat + (arcBytes table address place a).length < 2 ^ 32 := by omega
    have hadd : (UInt32.ofNat (arc.toNat + (arcBytes table address place a).length)).toNat =
        arc.toNat + (arcBytes table address place a).length := UInt32.toNat_ofNat_of_lt' hlt
    rw [arcBytes_eq] at hfirst
    have hnextArc := nextArc_eq htable hfirst rfl fun _ => by rw [← arcBytes_eq]; exact hlt
    rw [hlast, if_neg (by decide), ← hlast, ← arcBytes_eq] at hnextArc
    refine .more hnextArc htransition (ih ?_ ?_ ?_ ?_)
    · intro b hb
      exact hsound b (List.mem_cons_of_mem a hb)
    · intro b hb hs
      rw [hnext b (List.mem_cons_of_mem a hb) hs, hadd, Nat.add_assoc]
    · rw [hadd]
      exact hrest
    · rw [hadd]
      omega

end

end Compact

end WordAutomata
