import WordAutomata.Write.Script

namespace WordAutomata

theorem Stages.bytes_script (s : Stages) : s.script.bytes = s.head ++ s.body := by
  simp [Stages.script, Script.bytes]

/-- What a run tells is the number of bytes that it hands over. -/
theorem Stages.result_script (s : Stages) : s.script.result = .ok s.script.bytes.length := by
  rw [s.bytes_script, List.length_append, ← s.written_eq]
  rfl

/-- If nothing fails, every byte has been taken. -/
theorem deliver_ok {sink : Sink} {result : Except WriteError Nat} {events : List Event} {n : Nat}
    (h : (deliver sink result events).result = .ok n) :
    result = .ok n ∧ (deliver sink result events).bytes = (Script.mk events result).bytes := by
  induction events generalizing sink with
  | nil => exact ⟨h, rfl⟩
  | cons event events ih =>
    cases event with
    | progress percent =>
      obtain ⟨hresult, hbytes⟩ := ih h
      exact ⟨hresult, hbytes⟩
    | write bs =>
      rw [deliver] at h ⊢
      by_cases htakes : sink.takes bs
      · rw [if_pos htakes] at h ⊢
        obtain ⟨hresult, hbytes⟩ := ih h
        exact ⟨hresult, congrArg (bs ++ ·) hbytes⟩
      · rw [if_neg htakes] at h
        cases h
    | flush =>
      rw [deliver] at h ⊢
      by_cases hfails : sink.flushFails
      · rw [if_pos hfails] at h
        cases h
      · rw [if_neg hfails] at h ⊢
        obtain ⟨hresult, hbytes⟩ := ih h
        exact ⟨hresult, hbytes⟩

/-- An output that takes everything takes everything. -/
theorem deliver_unlimited (result : Except WriteError Nat) (events : List Event) :
    (deliver .unlimited result events).result = result ∧
      (deliver .unlimited result events).bytes = (Script.mk events result).bytes := by
  induction events with
  | nil => exact ⟨rfl, rfl⟩
  | cons event events ih =>
    obtain ⟨hresult, hbytes⟩ := ih
    cases event with
    | progress percent => exact ⟨hresult, hbytes⟩
    | write bs => exact ⟨hresult, congrArg (bs ++ ·) hbytes⟩
    | flush => exact ⟨hresult, hbytes⟩

/-- What reaches an output is the beginning of what is handed over. -/
theorem deliver_prefix (sink : Sink) (result : Except WriteError Nat) (events : List Event) :
    (deliver sink result events).bytes <+: (Script.mk events result).bytes := by
  induction events generalizing sink with
  | nil => exact List.nil_prefix
  | cons event events ih =>
    cases event with
    | progress percent => exact ih sink
    | write bs =>
      rw [deliver]
      by_cases htakes : sink.takes bs
      · rw [if_pos htakes]
        exact List.prefix_append_right_inj bs |>.2 (ih _)
      · rw [if_neg htakes]
        exact (List.take_prefix _ _).trans (List.prefix_append _ _)
    | flush =>
      rw [deliver]
      by_cases hfails : sink.flushFails
      · rw [if_pos hfails]
        exact List.nil_prefix
      · rw [if_neg hfails]
        exact ih sink

/-- An error is the output's own, or that of the script. -/
theorem deliver_error {sink : Sink} {result : Except WriteError Nat} {events : List Event} {e : WriteError}
    (h : (deliver sink result events).result = .error e) : result = .error e ∨ ∃ cause, e = .io cause := by
  have hbroken (h : (Except.error (.io .broken) : Except WriteError Nat) = .error e) :
      result = .error e ∨ ∃ cause, e = .io cause := .inr ⟨.broken, (Except.error.inj h).symm⟩
  induction events generalizing sink with
  | nil => exact .inl h
  | cons event events ih =>
    cases event with
    | progress percent => exact ih h
    | write bs =>
      rw [deliver] at h
      by_cases htakes : sink.takes bs
      · rw [if_pos htakes] at h
        exact ih h
      · rw [if_neg htakes] at h
        exact hbroken h
    | flush =>
      rw [deliver] at h
      by_cases hfails : sink.flushFails
      · rw [if_pos hfails] at h
        exact hbroken h
      · rw [if_neg hfails] at h
        exact ih h

/-- A script that ends with an error hands nothing over before. -/
def Script.AllOrNothing (s : Script) : Prop := ∀ e, s.result = .error e → s.bytes = []

/-- A script that goes through all stages, or fails before its first byte. -/
inductive Script.Regular : Script → Prop
  | staged (s : Stages) : Regular s.script
  | failed (events : List Event) (e : WriteError) (h : ∀ event ∈ events, ∀ bs, event ≠ .write bs) :
    Regular (.failed events e)

theorem Script.Regular.allOrNothing {s : Script} (h : s.Regular) : s.AllOrNothing := by
  intro e he
  cases h with
  | staged s => cases he
  | failed events f h =>
    refine List.flatMap_eq_nil_iff.2 fun event hevent => ?_
    cases event with
    | write bs => exact absurd rfl (h _ hevent bs)
    | progress => rfl
    | flush => rfl

theorem Script.Regular.stages {s : Script} (h : s.Regular) {n : Nat} (hok : s.result = .ok n) :
    ∃ stages : Stages, s = stages.script := by
  cases h with
  | staged stages => exact ⟨stages, rfl⟩
  | failed events e h => cases hok

theorem Script.AllOrNothing.unwritten {s : Script} (h : s.AllOrNothing) {sink : Sink} {e : WriteError}
    (he : (s.deliverTo sink).result = .error e) (hio : ∀ cause, e ≠ .io cause) : (s.deliverTo sink).bytes = [] := by
  have hresult : s.result = .error e := (deliver_error he).resolve_right fun ⟨cause, hcause⟩ => hio cause hcause
  have hprefix : (s.deliverTo sink).bytes <+: s.bytes := deliver_prefix sink s.result s.events
  rw [h e hresult] at hprefix
  exact List.prefix_nil.1 hprefix

end WordAutomata
