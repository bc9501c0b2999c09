import WordAutomata.Proofs.CompactWriter
import WordAutomata.Proofs.Language
import WordAutomata.Proofs.UniformWriter
import WordAutomata.Stream

namespace WordAutomata

/-- The writers of both layouts, with their options. -/
inductive Writer
  | uniform (w : UniformWriter)
  | compact (w : CompactWriter)

namespace Writer

def flags : Writer → Flags
  | uniform w => w.flags
  | compact w => w.flags

def script : Writer → Automaton → Read Script
  | uniform w => w.script
  | compact w => w.script

end Writer

namespace Stream

/-- Whether offsets of 32 bits reach everything in the body. -/
def WithinReach : Stream → Prop
  | uniform u => u.body.size < 2 ^ 32
  | compact c => c.body.size ≤ 2 ^ 32

theorem withinReach_of_byteLength {x : Stream} (h : x.byteLength < 2 ^ 32) : x.WithinReach := by
  cases x with
  | uniform u =>
    have hle : u.body.size ≤ u.byteLength := Nat.le_add_left _ _
    exact Nat.lt_of_le_of_lt hle h
  | compact c =>
    have hle : c.body.size ≤ c.byteLength := Nat.le_add_left _ _
    exact Nat.le_of_lt (Nat.lt_of_le_of_lt hle h)

theorem ofBytes_uniform {data : Bytes} {u : Uniform} (h : Uniform.ofBytes data = .ok u) :
    ofBytes data = .ok (uniform u) := by
  obtain ⟨header, hparse, hrest⟩ := bind_eq_ok.1 h
  have hversion : header.version = Uniform.version := by
    by_contra hne
    simp [hne] at hrest
  simp [ofBytes, hparse, hversion, h]

theorem ofBytes_compact {data : Bytes} {c : Compact} (h : Compact.ofBytes data = .ok c) :
    ofBytes data = .ok (compact c) := by
  obtain ⟨header, hparse, hrest⟩ := bind_eq_ok.1 h
  have hversion : header.version = Compact.version := by
    by_contra hne
    simp [hne] at hrest
  have hother : Compact.version ≠ Uniform.version := by decide
  simp [ofBytes, hparse, hversion, hother, h]

end Stream

/-- A writer has come to its end over some output, and what the output has taken is read as a stream. -/
def Writer.Converts (w : Writer) (A : Automaton) (x : Stream) : Prop :=
  ∃ script sink n, w.script A = .ok script ∧ (script.deliverTo sink).result = .ok n ∧
    Stream.ofBytes (script.deliverTo sink).bytes.toArray = .ok x

namespace Writer

/-- Writes an automaton to an output that takes everything, and reads the stream again. -/
def convert? (w : Writer) (A : Automaton) : Option Stream := do
  let script ← (w.script A).toOption
  let delivery := script.deliverTo .unlimited
  let _ ← delivery.result.toOption
  (Stream.ofBytes delivery.bytes.toArray).toOption

theorem converts_of_convert? {w : Writer} {A : Automaton} {x : Stream} (h : w.convert? A = some x) : w.Converts A x := by
  simp only [convert?, Option.bind_eq_bind, Option.bind_eq_some_iff, toOption_eq_some] at h
  obtain ⟨script, hscript, n, hresult, hx⟩ := h
  exact ⟨script, .unlimited, n, hscript, hresult, hx⟩

/-- An output that takes everything takes what is read again. -/
theorem converts_of_uniform {w : UniformWriter} {A : Automaton} {script : Script} {n : Nat} {u : Uniform}
    (hscript : w.script A = .ok script) (hresult : script.result = .ok n)
    (hu : Uniform.ofBytes script.bytes.toArray = .ok u) : (uniform w).Converts A (.uniform u) := by
  obtain ⟨htakes, hbytes⟩ := deliver_unlimited script.result script.events
  refine ⟨script, .unlimited, n, hscript, htakes.trans hresult, ?_⟩
  rw [Script.deliverTo, hbytes]
  exact Stream.ofBytes_uniform hu

end Writer

namespace UniformWriter

theorem separatorConflict?_of_ok {w : UniformWriter} {A : Automaton} {script : Script} {n : Nat}
    (hscript : w.script A = .ok script) (hresult : script.result = .ok n) : w.separatorConflict? A = .ok none := by
  rw [UniformWriter.script, unsupported?_eq] at hscript
  cases hconflict : w.separatorConflict? A with
  | error f => simp [hconflict] at hscript
  | ok conflict =>
    cases conflict with
    | none => rfl
    | some e =>
      have hfailed : Script.failed [] e = script := by simpa [hconflict] using hscript
      rw [← hfailed] at hresult
      cases hresult

theorem numbers_of_script {w : UniformWriter} {A : Automaton} (hread : A.Readable) (hacyclic : A.graph.Acyclic)
    (hnumbers : w.flags.numbers = true) {script : Script} {u : Uniform}
    (hseparators : w.separatorConflict? A = .ok none) (hscript : w.script A = .ok script)
    (hu : Uniform.ofBytes script.bytes.toArray = .ok u) : u.automaton.flags.numbers = true := by
  obtain ⟨order, count, countWidth, -, hwidth, hok, hcounts⟩ := w.script_eq hread (fun _ => hacyclic) hseparators
  obtain ⟨hpos, -⟩ := hcounts hnumbers
  obtain ⟨s, hready, hplan⟩ := w.writePlan_eq (A.graph.plan count order) countWidth
  obtain rfl := Except.ok.inj (hscript.symm.trans hok)
  rw [hplan, bytes_stages, w.ofBytes_eq hready hwidth] at hu
  obtain rfl := Except.ok.inj hu
  have hflags : (w.reader countWidth s).flags = Uniform.baseFlags.insert .numbers := if_pos hpos
  show (w.reader countWidth s).flags.numbers = true
  rw [hflags]
  rfl

end UniformWriter

namespace CompactWriter

theorem numbers_of_script {w : CompactWriter} {A : Automaton} (hread : A.Readable) (hacyclic : A.graph.Acyclic)
    (hnumbers : w.flags.numbers = true) {script : Script} {n : Nat} {c : Compact} (hscript : w.script A = .ok script)
    (hresult : script.result = .ok n) (hc : Compact.ofBytes script.bytes.toArray = .ok c) :
    c.automaton.flags.numbers = true := by
  obtain ⟨states, count, hstates, hok, hcount⟩ := w.script_eq hread fun _ => hacyclic
  obtain ⟨counts, -, -, rfl⟩ := hcount hnumbers
  obtain rfl := Except.ok.inj (hscript.symm.trans hok)
  cases hflags : unsupported? .compact supported w.flags with
  | some e =>
    rw [hflags] at hresult
    cases hresult
  | none =>
    rw [hflags] at hresult hc
    obtain ⟨moved, l, hmoved, hplan, hready, hwritten⟩ := writeSubject_cases hresult
    have horder := Graph.linearize_ordered fun t ht => (hstates.mem_iff t).1 (hmoved t ht)
    have hsound : l.plan.Sound := by
      rw [hplan]
      exact hread.plan_sound horder _
    have htable : (reader ⟨A.graph, .ofLabels (A.graph.labels states), some (counts.getD · 0)⟩ l).Holds
        (.ofLabels (A.graph.labels states)) := ⟨rfl, LabelTable.length_ofLabels_le _⟩
    rw [hwritten, bytes_stages, hready.ofBytes_eq hsound htable] at hc
    obtain rfl := Except.ok.inj hc
    exact numbers_reader _ l

end CompactWriter

namespace UniformWriter

theorem stream_of_script {w : UniformWriter} {A : Automaton} (hread : A.Readable)
    (hnumbers : w.flags.numbers = true → A.graph.Acyclic) {script : Script} (hscript : w.script A = .ok script) {n : Nat}
    (hresult : script.result = .ok n) : n = script.bytes.length ∧ ∃ u, Uniform.ofBytes script.bytes.toArray = .ok u ∧
      (u.body.size < 2 ^ 32 → A.Restored u.automaton w.flags.numbers) := by
  have hseparators := separatorConflict?_of_ok hscript hresult
  obtain ⟨order, count, countWidth, horder, hwidth, hok, hcounts⟩ := w.script_eq hread hnumbers hseparators
  obtain ⟨hlength, u, hu, -, -, -, hrestored⟩ := writePlan_restored horder count hread w hwidth
  obtain rfl := Except.ok.inj (hok.symm.trans hscript)
  refine ⟨Except.ok.inj (hresult.symm.trans hlength), u, hu, ?_⟩
  intro hsmall
  exact restored_of_rows (hrestored hsmall) hcounts

end UniformWriter

namespace Writer

/-- What a script hands over that ends well is read as a stream. If offsets reach all of it, it restores the automaton. -/
theorem stream_of_script {w : Writer} {A : Automaton} (hread : A.Readable) (hacyclic : A.graph.Acyclic) {script : Script}
    (hscript : w.script A = .ok script) {n : Nat} (hresult : script.result = .ok n) :
    n = script.bytes.length ∧ ∃ x, Stream.ofBytes script.bytes.toArray = .ok x ∧
      (x.WithinReach → A.Restored x.automaton w.flags.numbers) ∧
      (w.flags.numbers = true → x.automaton.flags.numbers = true) := by
  cases w with
  | uniform w =>
    obtain ⟨hn, u, hu, hrestored⟩ := UniformWriter.stream_of_script hread (fun _ => hacyclic) hscript hresult
    have hseparators := UniformWriter.separatorConflict?_of_ok hscript hresult
    refine ⟨hn, .uniform u, Stream.ofBytes_uniform hu, hrestored, ?_⟩
    intro hnumbers
    exact UniformWriter.numbers_of_script hread hacyclic hnumbers hseparators hscript hu
  | compact w =>
    obtain ⟨hn, c, hc, hrestored⟩ := CompactWriter.stream_of_script hread (fun _ => hacyclic) hscript hresult
    refine ⟨hn, .compact c, Stream.ofBytes_compact hc, hrestored, ?_⟩
    intro hnumbers
    exact CompactWriter.numbers_of_script hread hacyclic hnumbers hscript hresult hc

end Writer

namespace Writer.Converts

variable {w : Writer} {A : Automaton} {x : Stream} (h : w.Converts A x) (hread : A.Readable)
  (hacyclic : A.graph.Acyclic) (hreach : x.WithinReach)

include h hread hacyclic hreach

theorem restored : A.Restored x.automaton w.flags.numbers ∧
    (w.flags.numbers = true → x.automaton.flags.numbers = true) := by
  obtain ⟨script, sink, n, hscript, hresult, hx⟩ := h
  obtain ⟨hok, hbytes⟩ := deliver_ok hresult
  obtain ⟨-, x', hx', hrestored, hnumbers⟩ := stream_of_script hread hacyclic hscript hok
  rw [Script.deliverTo, hbytes] at hx
  obtain rfl := Except.ok.inj (hx'.symm.trans hx)
  exact ⟨hrestored hreach, hnumbers⟩

end Writer.Converts

end WordAutomata
