import WordAutomata.Proofs.Copies

namespace WordAutomata

theorem Graph.Iso.refl (G : Graph) : G.Iso G id := by
  have hmap : Transition.map id = id := by
    funext t
    simp [Transition.map]
  refine ⟨Set.bijOn_id _, by simp, ?_⟩
  intro s _
  simp [hmap]

namespace UniformWriter

/-- The bytes behind a layout are written as they were laid out. -/
theorem emit_of_layout {plan : Plan} {countWidth : Nat} {s : Settled} (h : layout plan countWidth 1 #[] = .ok s) :
    (format countWidth s.width plan.root.isSome).pass plan.rows s.pass.offsets = s.pass ∧
      emit plan countWidth s = .ok s.pass := by
  obtain ⟨s', hs', hready⟩ := layout_ready plan countWidth (Nat.le_refl 1) (by decide) #[]
  obtain rfl := Except.ok.inj (h.symm.trans hs')
  exact ⟨hready.pass_eq, hready.emit_eq⟩

theorem script_regular {w : UniformWriter} {A : Automaton} {script : Script} (h : w.script A = .ok script) :
    script.Regular := by
  have hplan (plan : Plan) (countWidth : Nat) : (w.writePlan plan countWidth).Regular := by
    obtain ⟨s, -, hwritten⟩ := w.writePlan_eq plan countWidth
    rw [hwritten]
    exact .staged _
  rw [UniformWriter.script, unsupported?_eq] at h
  obtain ⟨conflict, -, h⟩ := bind_eq_ok.1 h
  cases conflict with
  | some e =>
    obtain rfl := Except.ok.inj h
    exact .failed [] e (by simp)
  | none =>
    obtain ⟨order, -, h⟩ := bind_eq_ok.1 h
    split at h
    · obtain ⟨counts, -, h⟩ := bind_eq_ok.1 h
      obtain rfl := Except.ok.inj h
      exact hplan _ _
    · obtain rfl := Except.ok.inj h
      exact hplan _ _

theorem separatorConflict?_total (w : UniformWriter) {A : Automaton} (hread : A.Readable) :
    ∃ conflict, w.separatorConflict? A = .ok conflict := by
  obtain ⟨used, hused, -⟩ := usesLabel_iff hread w.filler
  rw [separatorConflict?, hused]
  split
  · exact ⟨_, rfl⟩
  · split
    · exact ⟨_, rfl⟩
    · cases used <;> exact ⟨_, rfl⟩

theorem script_total (w : UniformWriter) {A : Automaton} (hread : A.Readable)
    (hnumbers : w.flags.numbers = true → A.graph.Acyclic) : ∃ script, w.script A = .ok script := by
  obtain ⟨conflict, hconflict⟩ := w.separatorConflict?_total hread
  cases conflict with
  | none =>
    obtain ⟨_, _, _, -, -, hscript, -⟩ := w.script_eq hread hnumbers hconflict
    exact ⟨_, hscript⟩
  | some e => exact ⟨.failed [] e, script_of_conflict hconflict⟩

/-- Nothing but separators can stand in the way. -/
theorem result_of_script {w : UniformWriter} {A : Automaton} (hread : A.Readable)
    (hnumbers : w.flags.numbers = true → A.graph.Acyclic) (hseparators : w.flags.separators = false) {script : Script}
    (hscript : w.script A = .ok script) : ∃ n, script.result = .ok n := by
  have hconflict : w.separatorConflict? A = .ok none := by
    rw [separatorConflict?, hseparators]
    rfl
  obtain ⟨_, _, _, -, -, hok, -⟩ := w.script_eq hread hnumbers hconflict
  obtain ⟨_, -, hplan⟩ := w.writePlan_eq _ _
  rw [hplan] at hok
  obtain rfl := Except.ok.inj (hok.symm.trans hscript)
  exact ⟨_, rfl⟩

end UniformWriter

namespace CompactWriter

/-- The bytes behind a layout are written as they were laid out, and every address in them has a code. -/
theorem emit_of_bestLayout {s : Subject} {tuning : Tuning} {states : List State} {l : Settled}
    (h : bestLayout s tuning states = .ok l) :
    (s.format l.plan).pass l.plan.rows l.pass.offsets = l.pass ∧ emit s l = .ok l.pass ∧
      ∀ place < l.plan.rows.length, VCode.encode (placed s l place) = .ok (VCode.code (placed s l place)) := by
  obtain ⟨moved, -, hlayout⟩ := bestLayout_cases h
  obtain ⟨-, hready⟩ := layout_cases hlayout
  exact ⟨hready.pass_eq, hready.emit_eq, fun place hplace => VCode.encode_eq (hready.placed_lt hplace)⟩

theorem script_regular {w : CompactWriter} {A : Automaton} {script : Script} (h : w.script A = .ok script) :
    script.Regular := by
  have hsubject (s : Subject) (states : List State) : (w.writeSubject s states).Regular := by
    cases hl : bestLayout s w.tuning states with
    | error e =>
      simp only [writeSubject, hl]
      exact .failed _ _ (by simp)
    | ok l =>
      rw [writeSubject_eq hl]
      exact .staged _
  rw [CompactWriter.script] at h
  split at h
  · obtain rfl := Except.ok.inj h
    exact .failed _ _ (by simp)
  · obtain ⟨states, -, h⟩ := bind_eq_ok.1 h
    split at h
    · obtain ⟨counts, -, h⟩ := bind_eq_ok.1 h
      obtain rfl := Except.ok.inj h
      exact hsubject _ _
    · obtain rfl := Except.ok.inj h
      exact hsubject _ _

theorem script_total (w : CompactWriter) {A : Automaton} (hread : A.Readable)
    (hnumbers : w.flags.numbers = true → A.graph.Acyclic) : ∃ script, w.script A = .ok script := by
  obtain ⟨_, _, -, hscript, -⟩ := w.script_eq hread hnumbers
  exact ⟨_, hscript⟩

end CompactWriter

namespace Writer

/-- What a writer has laid out is what it writes: the pass behind the layout finds every offset and every byte again. -/
def Repeats : Writer → Prop
  | uniform _ => ∀ plan countWidth s, UniformWriter.layout plan countWidth 1 #[] = .ok s →
      (UniformWriter.format countWidth s.width plan.root.isSome).pass plan.rows s.pass.offsets = s.pass ∧
        UniformWriter.emit plan countWidth s = .ok s.pass
  | compact w => ∀ s states l, CompactWriter.bestLayout s w.tuning states = .ok l →
      (s.format l.plan).pass l.plan.rows l.pass.offsets = l.pass ∧ CompactWriter.emit s l = .ok l.pass ∧
        ∀ place < l.plan.rows.length,
          VCode.encode (CompactWriter.placed s l place) = .ok (VCode.code (CompactWriter.placed s l place))

theorem script_total (w : Writer) {A : Automaton} (hread : A.Readable)
    (hnumbers : w.flags.numbers = true → A.graph.Acyclic) : ∃ script, w.script A = .ok script := by
  cases w with
  | uniform w => exact w.script_total hread hnumbers
  | compact w => exact w.script_total hread hnumbers

theorem script_regular {w : Writer} {A : Automaton} {script : Script} (h : w.script A = .ok script) :
    script.Regular := by
  cases w with
  | uniform w => exact UniformWriter.script_regular h
  | compact w => exact CompactWriter.script_regular h

/-- An automaton that can be read makes a writer come to an end, with counts if it has no cycles. If this end is an error,
and the error is not the output's own, then no byte has reached the output. -/
theorem failed_unwritten (w : Writer) (A : Automaton) :
    (A.Readable → (w.flags.numbers = true → A.graph.Acyclic) → ∃ script, w.script A = .ok script) ∧ w.Repeats ∧
      ∀ script, w.script A = .ok script → ∀ sink e, (script.deliverTo sink).result = .error e →
        (∀ cause, e ≠ .io cause) → (script.deliverTo sink).bytes = [] := by
  have hrepeats : w.Repeats := by
    cases w with
    | uniform w => exact fun _ _ _ hlayout => UniformWriter.emit_of_layout hlayout
    | compact w => exact fun _ _ _ hlayout => CompactWriter.emit_of_bestLayout hlayout
  refine ⟨w.script_total, hrepeats, ?_⟩
  intro script hscript sink e
  exact (script_regular hscript).allOrNothing.unwritten

/-- A separator that is a label: nothing is written at all. -/
theorem failed_unwritten_separator : ∃ b script, Builder.build [[97, 98]] = .ok b ∧
    (Writer.uniform { flags := Flags.ofList [.separators], filler := 97 }).script b.automaton = .ok script ∧
    (script.deliverTo .unlimited).result = .error (.separatorConflict (.fillerIsLabel 97)) ∧
    (script.deliverTo .unlimited).bytes = [] := by
  have hrun : (do
      let b ← (Builder.build [[97, 98]]).toOption
      let script ← ((Writer.uniform { flags := Flags.ofList [.separators], filler := 97 }).script b.automaton).toOption
      return (script.deliverTo .unlimited).result) = some (.error (.separatorConflict (.fillerIsLabel 97))) := by cbv
  simp only [Option.bind_eq_bind, Option.bind_eq_some_iff, toOption_eq_some, Option.pure_def, Option.some.injEq] at hrun
  obtain ⟨b, hb, script, hscript, hresult⟩ := hrun
  obtain ⟨p, root, rfl, h⟩ := Builder.finished_of_build hb
  obtain ⟨htotal, -, hunwritten⟩ :=
    failed_unwritten (.uniform { flags := Flags.ofList [.separators], filler := 97 }) (p.reader root)
  obtain ⟨script', hscript'⟩ := htotal h.readable fun _ => h.acyclic
  obtain rfl := Except.ok.inj (hscript'.symm.trans hscript)
  exact ⟨_, script', hb, hscript', hresult, hunwritten script' hscript' .unlimited _ hresult (by simp)⟩

end Writer

end WordAutomata
