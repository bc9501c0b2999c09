import WordAutomata.Proofs.Checks
import WordAutomata.Proofs.Directory
import WordAutomata.Proofs.Entries
import WordAutomata.Proofs.Unwritten

namespace WordAutomata.Tool

theorem buildFrom_eq_ok {d : Directory} {o : CompileOptions} {b : RecordBuffer} {count : Nat} :
    buildFrom d o = .ok (b, count) ↔
      ∃ words, readEntries d o.input o.presorted = .ok words ∧ Builder.build words = .ok b ∧ words.length = count := by
  rw [buildFrom, bind_eq_ok]
  constructor
  · rintro ⟨words, hwords, h⟩
    refine ⟨words, hwords, ?_⟩
    cases hbuild : Builder.build words with
    | error e => simp [hbuild] at h
    | ok b' =>
      rw [hbuild] at h
      obtain ⟨rfl, rfl⟩ : b' = b ∧ words.length = count := by simpa using h
      exact ⟨rfl, rfl⟩
  · rintro ⟨words, hwords, hbuild, rfl⟩
    exact ⟨words, hwords, by rw [hbuild]; rfl⟩

/-- The flags that options ask for. -/
def CompileOptions.flags (o : CompileOptions) : Flags := if o.numbers then Flags.empty.insert .numbers else .empty

/-- Options fit together, and then a writer carries them out, or they do not. -/
theorem writer_cases (o : CompileOptions) :
    (∃ f, writer o = .error f) ∨ ∃ w : Writer, writer o = .ok w.script ∧ w.flags = o.flags := by
  cases hwriter : writer o with
  | error f => exact .inl ⟨f, rfl⟩
  | ok script =>
    right
    rw [writer] at hwriter
    split at hwriter
    · obtain ⟨filler, -, hwriter⟩ := bind_eq_ok.1 hwriter
      obtain ⟨separator, -, hwriter⟩ := bind_eq_ok.1 hwriter
      rw [← Except.ok.inj hwriter]
      exact ⟨.uniform _, rfl, rfl⟩
    · dsimp only at hwriter
      split at hwriter
      · cases hwriter
      · rw [← Except.ok.inj hwriter]
        exact ⟨.compact _, rfl, rfl⟩

/-- What is written to an output that takes everything. -/
theorem writeTo_eq {o : CompileOptions} {w : Writer} (hwriter : writer o = .ok w.script) {b : RecordBuffer}
    {script : Script} (hscript : w.script b.automaton = .ok script) (d : Directory) (place : String) (count : Nat) :
    writeTo d place o b count = match script.result with
      | .error e => (.silent (.failed (.ofWriteError e)), d.put place script.bytes.toArray)
      | .ok n => (.printing s!"Wrote {count} entries in {n} bytes to {quoted o.output}.\n",
          d.put place script.bytes.toArray) := by
  have htaken : (script.deliverTo .unlimited).result = script.result := (deliver_unlimited _ _).1
  have hbytes : (script.deliverTo .unlimited).bytes = script.bytes := (deliver_unlimited _ _).2
  rw [writeTo, hwriter]
  cases hresult : script.result with
  | error e => simp [hscript, htaken, hbytes, hresult]
  | ok n => simp [hscript, htaken, hbytes, hresult]

/-- How compiling a word list ends, and what it leaves behind. -/
inductive Compiling (d : Directory) (o : CompileOptions) : Outcome × Directory → Prop
  /-- The words cannot be read, or are not accepted. -/
  | unbuilt {f : Failure} (h : buildFrom d o = .error f) : Compiling d o (.silent (.failed f), d)
  /-- The output cannot be made. -/
  | uncreated {b : RecordBuffer} {count : Nat} {cause : IoCause} (hbuild : buildFrom d o = .ok (b, count))
      (h : d.create o.output = .error cause) :
    Compiling d o (.silent (.failed ⟨s!"Could not create {quoted o.output}", [cause.message]⟩), d)
  /-- The options do not fit together. -/
  | refused {b : RecordBuffer} {count : Nat} {place : String} {d' : Directory} {f : Failure}
      (hbuild : buildFrom d o = .ok (b, count)) (hcreate : d.create o.output = .ok (place, d'))
      (h : writer o = .error f) : Compiling d o (.silent (.failed f), d.put place #[])
  /-- The writer fails. -/
  | unwritten {b : RecordBuffer} {count : Nat} {place : String} {d' : Directory} {w : Writer} {script : Script}
      {e : WriteError} (hbuild : buildFrom d o = .ok (b, count)) (hcreate : d.create o.output = .ok (place, d'))
      (hwriter : writer o = .ok w.script) (hflags : w.flags = o.flags) (hscript : w.script b.automaton = .ok script)
      (h : script.result = .error e) : Compiling d o (.silent (.failed (.ofWriteError e)), d.put place #[])
  | written {b : RecordBuffer} {count : Nat} {place : String} {d' : Directory} {w : Writer} {script : Script} {n : Nat}
      (hbuild : buildFrom d o = .ok (b, count)) (hcreate : d.create o.output = .ok (place, d'))
      (hwriter : writer o = .ok w.script) (hflags : w.flags = o.flags) (hscript : w.script b.automaton = .ok script)
      (h : script.result = .ok n) :
    Compiling d o (.printing s!"Wrote {count} entries in {n} bytes to {quoted o.output}.\n",
      d.put place script.bytes.toArray)

theorem compile_compiling (d : Directory) (o : CompileOptions) : Compiling d o (compile d o) := by
  rw [compile]
  cases hbuild : buildFrom d o with
  | error f => exact .unbuilt hbuild
  | ok x =>
    obtain ⟨b, count⟩ := x
    cases hcreate : d.create o.output with
    | error cause => exact .uncreated hbuild hcreate
    | ok x =>
      obtain ⟨place, d'⟩ := x
      obtain ⟨-, -, -, rfl⟩ := Directory.create_eq_ok hcreate
      show Compiling d o (writeTo (d.put place #[]) place o b count)
      rcases writer_cases o with ⟨f, hwriter⟩ | ⟨w, hwriter, hflags⟩
      · rw [writeTo, hwriter]
        exact .refused hbuild hcreate hwriter
      · obtain ⟨words, -, hbuilt, -⟩ := buildFrom_eq_ok.1 hbuild
        obtain ⟨p, root, rfl, h⟩ := Builder.finished_of_build hbuilt
        obtain ⟨script, hscript⟩ := w.script_total h.readable fun _ => h.acyclic
        rw [writeTo_eq hwriter hscript, Directory.put_put]
        cases hresult : script.result with
        | ok n => exact .written hbuild hcreate hwriter hflags hscript hresult
        | error e =>
          rw [(Writer.script_regular hscript).allOrNothing e hresult]
          exact .unwritten hbuild hcreate hwriter hflags hscript hresult

/-- The words have been built and the output file has been made or emptied, but nothing has been written to it. -/
structure LeftEmpty (d : Directory) (o : CompileOptions) (result : Outcome × Directory) : Prop where
  made : ∃ b count place d', buildFrom d o = .ok (b, count) ∧ d.create o.output = .ok (place, d') ∧
    result.2 = d.put place #[] ∧ ∀ p, p ≠ place → result.2.get? p = d.get? p
  read_eq : result.2.read o.output = .ok #[]
  /-- The options do not fit together, or the writer fails. -/
  ending_eq : (∃ f, writer o = .error f ∧ result.1 = .silent (.failed f)) ∨
    ∃ (w : Writer) (e : WriteError), writer o = .ok w.script ∧ result.1 = .silent (.failed (.ofWriteError e))

theorem LeftEmpty.of_create {d d' : Directory} {o : CompileOptions} {b : RecordBuffer} {count : Nat} {place : String}
    (hbuild : buildFrom d o = .ok (b, count)) (hcreate : d.create o.output = .ok (place, d')) {ending : Outcome}
    (hending : (∃ f, writer o = .error f ∧ ending = .silent (.failed f)) ∨
      ∃ (w : Writer) (e : WriteError), writer o = .ok w.script ∧ ending = .silent (.failed (.ofWriteError e))) :
    LeftEmpty d o (ending, d.put place #[]) := by
  have hread := Directory.read_put_of_create #[] hcreate
  obtain ⟨-, -, -, rfl⟩ := Directory.create_eq_ok hcreate
  rw [Directory.put_put] at hread
  exact ⟨⟨b, count, place, _, hbuild, hcreate, rfl, fun p => d.get?_put_of_ne place #[]⟩, hread, hending⟩

/-- A run that fails leaves everything as it was if its words are not accepted or its output cannot be made. Otherwise the
output file has been emptied before the options are looked at; no other file has changed. -/
theorem failed_run {d : Directory} {parse : List String → Option Command} {args : List String}
    (h : (run d args parse).1.code ≠ 0) :
    (run d args parse).2 = d ∧ (∀ o, parse args = some (.compile o) →
      (∃ f, buildFrom d o = .error f) ∨ ∃ cause, d.create o.output = .error cause) ∨
    ∃ o, parse args = some (.compile o) ∧ LeftEmpty d o (run d args parse) := by
  by_cases hcompile : ∃ o, parse args = some (.compile o)
  · obtain ⟨o, hargs⟩ := hcompile
    have hsame {o' : CompileOptions} (hargs' : parse args = some (.compile o')) : o = o' := by
      rw [hargs, Option.some.injEq, Command.compile.injEq] at hargs'
      exact hargs'
    have hrun : run d args parse = compile d o := by rw [run, hargs]
    have hcompiling := compile_compiling d o
    rw [hrun] at h ⊢
    generalize compile d o = result at h hcompiling
    cases hcompiling with
    | unbuilt hbuild =>
      refine .inl ⟨rfl, fun o' hargs' => ?_⟩
      rw [← hsame hargs']
      exact .inl ⟨_, hbuild⟩
    | uncreated hbuild hcreate =>
      refine .inl ⟨rfl, fun o' hargs' => ?_⟩
      rw [← hsame hargs']
      exact .inr ⟨_, hcreate⟩
    | refused hbuild hcreate hwriter =>
      exact .inr ⟨o, hargs, .of_create hbuild hcreate (.inl ⟨_, hwriter, rfl⟩)⟩
    | unwritten hbuild hcreate hwriter hflags hscript hresult =>
      exact .inr ⟨o, hargs, .of_create hbuild hcreate (.inr ⟨_, _, hwriter, rfl⟩)⟩
    | written => exact absurd rfl h
  · refine .inl ⟨?_, fun o hargs => absurd ⟨o, hargs⟩ hcompile⟩
    rw [run]
    split
    · rfl
    · rename_i o hargs
      exact absurd ⟨o, hargs⟩ hcompile
    all_goals rfl

/-- A folder with a word list, and a file to be written over. One of the words comes twice, once with a carriage return, and
one line is empty. -/
def twoFiles : Directory := { files := [("in", #[98, 13, 10, 97, 10, 10, 98]), ("out", #[111, 108, 100])] }

theorem read_twoFiles : twoFiles.read "in" = .ok #[98, 13, 10, 97, 10, 10, 98] := by
  have hends : "in".endsWith "/" = false := by cbv
  have hstart : Directory.start "in" = "" := by cbv
  have hcheck : Directory.checkPath "in" = .ok () := rfl
  have hwalk : twoFiles.walk "" (Directory.parts "in") = .ok (.file "in" #[98, 13, 10, 97, 10, 10, 98]) := rfl
  simp [Directory.read, hends, hstart, hcheck, hwalk]

theorem readEntries_twoFiles : readEntries twoFiles "in" false = .ok [[97], [98]] := by
  have hentries : sortEntries (entries #[98, 13, 10, 97, 10, 10, 98]) = [[97], [98]] := by cbv
  simp [readEntries, read_twoFiles, hentries]

theorem create_twoFiles : ∃ d, twoFiles.create "out" = .ok ("out", d) := by
  have hends : "out".endsWith "/" = false := by cbv
  have hstart : Directory.start "out" = "" := by cbv
  have hcheck : Directory.checkPath "out" = .ok () := rfl
  have hwalk : twoFiles.walk "" (Directory.parts "out") = .ok (.file "out" #[111, 108, 100]) := rfl
  simp [Directory.create, hends, hstart, hcheck, hwalk]

/-- An option that only the other format has. -/
def fillerOptions : CompileOptions := ⟨"in", "out", .compact, false, false, some 'x', none⟩

theorem command?_filler : command? ["compile", "in", "out", "--filler", "x"] = some (.compile fillerOptions) := by
  have hstart : "--filler".startsWith "--" = true := by cbv
  have hmeaning : compileGrammar.meaning "--filler" = .waiting "filler" := by
    rw [Grammar.meaning, hstart, if_pos rfl]
    rfl
  have hoption : looksLikeOption "--filler" = true := by cbv
  have hcommand : looksLikeOption "compile" = false := by cbv
  have hinput : looksLikeOption "in" = false := by cbv
  have houtput : looksLikeOption "out" = false := by cbv
  have hvalue : looksLikeOption "x" = false := by cbv
  have hparse : compileGrammar.parse {} ["in", "out", "--filler", "x"] =
      .parsed ⟨["in", "out"], [], [("filler", some "x")]⟩ := by
    simp [Grammar.parse, hmeaning, hoption, hinput, houtput, hvalue, Parsed.addValue]
    simp [compileGrammar]
  have hformat : format? "cfsa2" = some .compact := by cbv
  have hoptions : compileOptions? ⟨["in", "out"], [], [("filler", some "x")]⟩ = some fillerOptions := by
    simp [compileOptions?, Parsed.char?, Tool.char?, List.lookup, hformat, fillerOptions]
  simp [command?, subcommand?, finish, hcommand, hparse, Parsed.distinct, hoptions]

/-- The file to be written over is empty afterwards. -/
theorem failed_run_filler : twoFiles.get? "out" = some #[111, 108, 100] ∧
    (run twoFiles ["compile", "in", "out", "--filler", "x"]).1.code ≠ 0 ∧
    LeftEmpty twoFiles fillerOptions (run twoFiles ["compile", "in", "out", "--filler", "x"]) := by
  have hrun : run twoFiles ["compile", "in", "out", "--filler", "x"] = compile twoFiles fillerOptions := by
    rw [run, command?_filler]
  obtain ⟨d', hcreate⟩ := create_twoFiles
  have hwords : readEntries twoFiles fillerOptions.input fillerOptions.presorted = .ok [[97], [98]] :=
    readEntries_twoFiles
  have hbuilds : (Builder.build [[97], [98]]).isOk = true := by cbv
  have hcode : (compile twoFiles fillerOptions).1.code ≠ 0 := by
    have hcompiling := compile_compiling twoFiles fillerOptions
    generalize compile twoFiles fillerOptions = result at hcompiling
    cases hcompiling with
    | written _ _ hwriter => cases hwriter
    | _ => simp [Outcome.code, Outcome.silent]
  cases hbuild : Builder.build [[97], [98]] with
  | error e => simp [hbuild, Except.isOk, Except.toBool] at hbuilds
  | ok b =>
    have hbuilt : buildFrom twoFiles fillerOptions = .ok (b, 2) := buildFrom_eq_ok.2 ⟨_, hwords, hbuild, rfl⟩
    rw [hrun]
    refine ⟨rfl, hcode, ?_⟩
    rw [← hrun] at hcode ⊢
    rcases failed_run hcode with ⟨-, hkept⟩ | ⟨o, hargs, hempty⟩
    · rcases hkept fillerOptions command?_filler with ⟨f, hf⟩ | ⟨cause, hcause⟩
      · cases hbuilt.symm.trans hf
      · cases hcreate.symm.trans hcause
    · obtain rfl : fillerOptions = o := by simpa [command?_filler] using hargs
      exact hempty

end WordAutomata.Tool
