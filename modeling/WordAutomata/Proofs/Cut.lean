import WordAutomata.Proofs.Unwritten

namespace WordAutomata

/-- The same events, with the bytes of every write in several pieces. -/
inductive Divided : List Event → List Event → Prop
  | nil : Divided [] []
  | keep (event : Event) {events pieces : List Event} (h : Divided events pieces) :
    Divided (event :: events) (event :: pieces)
  | write (parts : List (List UInt8)) {events pieces : List Event} (h : Divided events pieces) :
    Divided (.write parts.flatten :: events) (parts.map .write ++ pieces)

/-- Every byte in a write of its own. -/
def bytewise (events : List Event) : List Event :=
  events.flatMap fun
    | .write bs => bs.map fun b => .write [b]
    | event => [event]

theorem divided_bytewise (events : List Event) : Divided events (bytewise events) := by
  induction events with
  | nil => exact .nil
  | cons event events ih =>
    cases event with
    | progress percent => exact .keep _ ih
    | flush => exact .keep _ ih
    | write bs =>
      have h := Divided.write (bs.map fun b => [b]) ih
      rw [← List.flatMap_def, List.flatMap_singleton', List.map_map] at h
      exact h

theorem deliver_write_append (sink : Sink) (result : Except WriteError Nat) (as bs : List UInt8) (events : List Event) :
    deliver sink result (.write (as ++ bs) :: events) = deliver sink result (.write as :: .write bs :: events) := by
  obtain ⟨room, flushFails⟩ := sink
  cases room with
  | none => simp [deliver, Sink.takes]
  | some n =>
    by_cases has : as.length ≤ n
    · have hfits : as.length + bs.length ≤ n ↔ bs.length ≤ n - as.length := by omega
      by_cases hbs : bs.length ≤ n - as.length
      · simp [deliver, Sink.takes, has, hfits, hbs, Nat.sub_add_eq]
      · simp [deliver, Sink.takes, has, hfits, hbs, List.take_append, List.take_of_length_le has]
    · have hover : ¬as.length + bs.length ≤ n := by omega
      have hnone : n - as.length = 0 := by omega
      simp [deliver, Sink.takes, has, hover, List.take_append, hnone]

/-- A piece without bytes is always taken. -/
theorem deliver_write_nil (sink : Sink) (result : Except WriteError Nat) (events : List Event) :
    deliver sink result (.write [] :: events) = deliver sink result events := by
  obtain ⟨room, flushFails⟩ := sink
  cases room <;> simp [deliver, Sink.takes]

/-- An outcome of the events behind a write depends on the room that is left, and on nothing else. -/
theorem deliver_write_congr {result : Except WriteError Nat} {events pieces : List Event}
    (h : ∀ sink, deliver sink result pieces = deliver sink result events) (sink : Sink) (bs : List UInt8) :
    deliver sink result (.write bs :: pieces) = deliver sink result (.write bs :: events) := by
  simp only [deliver, h]

theorem deliver_parts (sink : Sink) (result : Except WriteError Nat) (parts : List (List UInt8)) (events : List Event) :
    deliver sink result (parts.map .write ++ events) = deliver sink result (.write parts.flatten :: events) := by
  induction parts generalizing sink with
  | nil => exact (deliver_write_nil sink result events).symm
  | cons part parts ih =>
    rw [List.map_cons, List.cons_append, List.flatten_cons, deliver_write_append]
    exact deliver_write_congr ih sink part

/-- The pieces that bytes are handed over in make no difference. -/
theorem deliver_divided {events pieces : List Event} (h : Divided events pieces) (sink : Sink)
    (result : Except WriteError Nat) : deliver sink result pieces = deliver sink result events := by
  induction h generalizing sink with
  | nil => rfl
  | keep event h ih =>
    cases event with
    | progress percent => simp only [deliver, ih]
    | write bs => exact deliver_write_congr ih sink bs
    | flush => simp only [deliver, ih]
  | write parts h ih =>
    rw [deliver_parts]
    exact deliver_write_congr ih sink parts.flatten

namespace Stages

variable (s : Stages) {n : Nat}

theorem deliverTo_unlimited :
    s.script.deliverTo .unlimited =
      ⟨s.head ++ s.body, [10, 60, 70, 95, 100], .ok (s.head ++ s.body).length⟩ := by
  simp [Script.deliverTo, script, deliver, Sink.takes, Sink.unlimited, s.written_eq]

/-- With room for everything, only the flush is left to fail. -/
theorem deliverTo_of_room (h : (s.head ++ s.body).length ≤ n) (flushFails : Bool) :
    s.script.deliverTo ⟨some n, flushFails⟩ =
      if flushFails then ⟨s.head ++ s.body, [10, 60, 70, 95], .error (.io .broken)⟩
      else ⟨s.head ++ s.body, [10, 60, 70, 95, 100], .ok (s.head ++ s.body).length⟩ := by
  rw [List.length_append] at h
  have hhead : s.head.length ≤ n := by omega
  have hbody : s.body.length ≤ n - s.head.length := by omega
  cases flushFails <;> simp [Script.deliverTo, script, deliver, Sink.takes, hhead, hbody, s.written_eq]

/-- Without it, the run ends within the head or within the body. -/
theorem deliverTo_of_short (h : n < (s.head ++ s.body).length) (flushFails : Bool) :
    ∃ progress, progress <+: [10, 60, 70] ∧ s.script.deliverTo ⟨some n, flushFails⟩ =
      ⟨(s.head ++ s.body).take n, progress, .error (.io .broken)⟩ := by
  rw [List.length_append] at h
  by_cases hhead : s.head.length ≤ n
  · have hbody : ¬s.body.length ≤ n - s.head.length := by omega
    refine ⟨[10, 60, 70], List.prefix_rfl, ?_⟩
    simp [Script.deliverTo, script, deliver, Sink.takes, hhead, hbody, List.take_append,
      List.take_of_length_le hhead]
  · have hnone : n - s.head.length = 0 := by omega
    refine ⟨[10, 60], List.prefix_append [10, 60] [70], ?_⟩
    simp [Script.deliverTo, script, deliver, Sink.takes, hhead, List.take_append, hnone]

end Stages

namespace Writer

/-- What a writer that ends well makes of an output that takes so many bytes and then fails, in whatever pieces it hands
its bytes over: the output holds the beginning of what an output without end would hold, the number of bytes is told if
all of them were taken and flushed, and the steps reported are those before the failure. -/
theorem output_cut {w : Writer} {A : Automaton} {script : Script} (hscript : w.script A = .ok script) {m : Nat}
    (hok : (script.deliverTo .unlimited).result = .ok m) {pieces : List Event}
    (hpieces : Divided script.events pieces) (n : Nat) (flushFails : Bool) :
    let output := (script.deliverTo .unlimited).bytes
    let cut := deliver ⟨some n, flushFails⟩ script.result pieces
    m = output.length ∧ (script.deliverTo .unlimited).progress = [10, 60, 70, 95, 100] ∧
      cut.bytes = output.take (min n output.length) ∧
      (cut.result = if output.length ≤ n ∧ flushFails = false then .ok output.length else .error (.io .broken)) ∧
      (output.length ≤ n → flushFails = false → cut.progress = [10, 60, 70, 95, 100]) ∧
      (output.length ≤ n → flushFails = true → cut.progress = [10, 60, 70, 95]) ∧
      (n < output.length → cut.progress <+: [10, 60, 70]) := by
  have hresult : script.result = .ok m := (deliver_ok hok).1
  obtain ⟨s, rfl⟩ := (script_regular hscript).stages hresult
  intro output cut
  have houtput : output = s.head ++ s.body := by
    show (s.script.deliverTo .unlimited).bytes = _
    rw [s.deliverTo_unlimited]
  have hcut : cut = s.script.deliverTo ⟨some n, flushFails⟩ := deliver_divided hpieces _ _
  have hm : m = output.length := by
    rw [s.deliverTo_unlimited] at hok
    rw [houtput]
    exact (Except.ok.inj hok).symm
  refine ⟨hm, by rw [s.deliverTo_unlimited], ?_⟩
  rw [houtput, hcut]
  by_cases hroom : (s.head ++ s.body).length ≤ n
  · have hrun := s.deliverTo_of_room hroom flushFails
    rw [hrun, Nat.min_eq_right hroom, List.take_length]
    generalize s.head ++ s.body = output at hroom
    have hlong : ¬n < output.length := Nat.not_lt.2 hroom
    cases flushFails <;> simp [hroom, hlong]
  · obtain ⟨progress, hprogress, hrun⟩ := s.deliverTo_of_short (Nat.lt_of_not_le hroom) flushFails
    rw [hrun]
    generalize s.head ++ s.body = output at hroom
    have hshort : n ≤ output.length := Nat.le_of_not_le hroom
    simp [hroom, hprogress, Nat.min_eq_left hshort]

/-- Two words of two letters, written byte by byte, with room for the header and two bytes more. -/
theorem output_cut_behind_header : ∃ b script m, Builder.build [[97, 99], [98, 99]] = .ok b ∧
    (Writer.uniform {}).script b.automaton = .ok script ∧ (script.deliverTo .unlimited).result = .ok m ∧
    Divided script.events (bytewise script.events) ∧
    (deliver ⟨some 10, false⟩ script.result (bytewise script.events)).bytes =
      (script.deliverTo .unlimited).bytes.take 10 ∧
    (deliver ⟨some 10, false⟩ script.result (bytewise script.events)).result = .error (.io .broken) := by
  have hrun : (do
      let b ← (Builder.build [[97, 99], [98, 99]]).toOption
      let script ← ((Writer.uniform {}).script b.automaton).toOption
      (script.deliverTo .unlimited).result.toOption) = some 18 := by cbv
  simp only [Option.bind_eq_bind, Option.bind_eq_some_iff, toOption_eq_some] at hrun
  obtain ⟨b, hb, script, hscript, hok⟩ := hrun
  have hpieces := divided_bytewise script.events
  obtain ⟨hlength, -, hbytes, hresult, -⟩ := output_cut hscript hok hpieces 10 false
  rw [← hlength] at hbytes hresult
  exact ⟨b, script, 18, hb, hscript, hok, hpieces, hbytes, hresult⟩

end Writer

end WordAutomata
