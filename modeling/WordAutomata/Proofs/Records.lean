import WordAutomata.Proofs.Pool
import WordAutomata.Proofs.Rows

namespace WordAutomata

/-- What a record says to a reader. -/
def Record.transition (r : Record) : Transition :=
  ⟨r.label, r.isFinal, if r.target = 0 then none else some ⟨r.target⟩⟩

theorem Record.target_eq_some {r : Record} {s : State} : r.transition.target = some s ↔ r.target ≠ 0 ∧ ⟨r.target⟩ = s := by
  by_cases hzero : r.target = 0
  · simp [transition, hzero]
  · simp [transition, hzero]

namespace RecordBuffer

variable {b : RecordBuffer}

theorem transition_eq {a : UInt32} {r : Record} {isLast : Bool} (h : b.data.Holds a.toNat (r.toBytes isLast)) :
    b.automaton.transition ⟨a⟩ = .ok r.transition := by
  rw [Record.toBytes, Bytes.holds_cons] at h
  obtain ⟨hmarks, h⟩ := h
  rw [Bytes.holds_cons] at h
  obtain ⟨hlabel, htarget⟩ := h
  have hbig := Bytes.bigAt_eq htarget (by decide)
  have hlt : r.target.toNat < 256 ^ 4 := r.target.toNat_lt
  rw [Nat.mod_eq_of_lt hlt] at hbig
  rw [Automaton.transition_eq_ok]
  refine ⟨Bytes.byte_eq hlabel, ?_, ?_⟩
  · show b.isFinal ⟨a⟩ = _
    rw [isFinal, Bytes.byte_eq hmarks]
    cases isLast <;> cases hfinal : r.isFinal <;> simp [Record.transition, hfinal] <;> decide
  · show b.target ⟨a⟩ = _
    rw [target, hbig]
    by_cases hzero : r.target = 0
    · simp [Record.transition, hzero]
    · have hne : r.target.toNat ≠ 0 := fun h => hzero (UInt32.toNat_inj.1 h)
      simp [Record.transition, hzero, hne]

theorem nextArc_eq {a : UInt32} {r : Record} {isLast : Bool} (h : b.data.Holds a.toNat (r.toBytes isLast))
    (hsmall : isLast = false → a.toNat + Record.size < 2 ^ 32) :
    b.automaton.nextArc ⟨a⟩ = .ok (if isLast then none else some ⟨a + 6⟩) := by
  rw [Record.toBytes, Bytes.holds_cons] at h
  show b.nextArc ⟨a⟩ = _
  rw [nextArc, Bytes.byte_eq h.1]
  cases isLast with
  | true => cases r.isFinal <;> rfl
  | false =>
    have hbit (f : Bool) : (UInt8.ofNat ((if false then 1 else 0) + if f then 2 else 0)).toNat.testBit 0 = false := by
      cases f <;> rfl
    simp only [ok_bind, hbit]
    rw [if_pos (show _ < 1 <<< 32 from hsmall rfl)]
    rfl

theorem carries_of_holds {rs : List Record} (hne : rs ≠ []) {a : UInt32} (h : b.data.Holds a.toNat (Record.rowBytes rs))
    (hsmall : a.toNat + Record.size * rs.length < 2 ^ 32) :
    b.automaton.Carries ⟨a⟩ (rs.map Record.transition) := by
  induction rs generalizing a with
  | nil => exact absurd rfl hne
  | cons r rs ih =>
    rw [Record.rowBytes_cons, Bytes.holds_append, Record.length_toBytes] at h
    obtain ⟨hfirst, hrest⟩ := h
    have htransition := transition_eq hfirst
    rw [List.length_cons, Record.size] at hsmall
    cases rs with
    | nil => exact .last (nextArc_eq hfirst (by simp)) htransition
    | cons s rs =>
      rw [List.length_cons] at hsmall
      have hnext := nextArc_eq hfirst (fun _ => by rw [Record.size]; omega)
      have hadd : (a + 6).toNat = a.toNat + Record.size := by
        rw [UInt32.toNat_add, Record.size]
        show (a.toNat + 6) % 2 ^ 32 = _
        omega
      refine .more hnext htransition (ih (by simp) ?_ ?_)
      · rw [hadd]
        exact hrest
      · rw [hadd, List.length_cons, Record.size]
        omega

end RecordBuffer

namespace Pool

theorem length_bytes (states : Frozen) (root : UInt32) :
    ((Record.toBytes ⟨0, false, root⟩ true) ++ states.reverse.flatMap Record.rowBytes).length = Frozen.behind states := by
  rw [List.length_append, Record.length_toBytes]
  induction states with
  | nil => rfl
  | cons rs states ih =>
    rw [Frozen.behind_cons, ← ih, List.reverse_cons, List.flatMap_append, List.length_append, List.flatMap_singleton,
      Record.length_rowBytes]
    omega

theorem size_toBytes (p : Pool) (root : UInt32) : (p.toBytes root).size = Frozen.behind p.states :=
  length_bytes p.states root

theorem holds_row {p : Pool} {a : Nat} {rs : List Record} (h : Frozen.row p.states a = some rs) (root : UInt32) :
    (p.toBytes root).Holds a (Record.rowBytes rs) := by
  have hsplit (states : Frozen) (hrow : Frozen.row states a = some rs) :
      ∃ before after, (Record.toBytes ⟨0, false, root⟩ true) ++ states.reverse.flatMap Record.rowBytes =
        before ++ (Record.rowBytes rs ++ after) ∧ before.length = a := by
    induction states with
    | nil => simp [Frozen.row] at hrow
    | cons rs' states ih =>
      rw [List.reverse_cons, List.flatMap_append, List.flatMap_singleton]
      rcases Frozen.row_cases hrow with ⟨rfl, rfl⟩ | ⟨-, hrow⟩
      · exact ⟨_, [], by rw [List.append_nil, ← List.append_assoc], length_bytes states root⟩
      · obtain ⟨before, after, heq, hlength⟩ := ih hrow
        refine ⟨before, after ++ Record.rowBytes rs', ?_, hlength⟩
        rw [← List.append_assoc, heq, List.append_assoc, List.append_assoc]
  obtain ⟨before, after, heq, rfl⟩ := hsplit p.states h
  exact Bytes.holds_of_append heq

end Pool

end WordAutomata
