import WordAutomata.Proofs.Compile

namespace WordAutomata.Tool

variable {d : Directory} {o : CompileOptions}

theorem readEntries_of_read {path : String} {data : Bytes} (h : d.read path = .ok data) (presorted : Bool) :
    readEntries d path presorted = .ok (if presorted then strippedLines data else sortEntries (strippedLines data)) := by
  rw [← entries_eq, readEntries, h]

theorem readEntries_eq_ok {path : String} {presorted : Bool} {words : List Word}
    (h : readEntries d path presorted = .ok words) : ∃ data, d.read path = .ok data ∧
      words = if presorted then strippedLines data else sortEntries (strippedLines data) := by
  cases hdata : d.read path with
  | ok data =>
    rw [readEntries_of_read hdata] at h
    exact ⟨data, rfl, (Except.ok.inj h).symm⟩
  | error cause =>
    rw [readEntries, hdata] at h
    cases cause <;> cases h

/-- Whether the words of a list are sorted or taken as they are, they are the same words. -/
theorem mem_ite_sortEntries {presorted : Bool} {words : List Word} {w : Word} :
    w ∈ (if presorted then words else sortEntries words) ↔ w ∈ words := by
  cases presorted with
  | true => exact Iff.rfl
  | false => exact mem_sortEntries

/-- What has been written is read as a stream that spells the words. -/
theorem words_of_script {w : Writer} {W : List Word} {b : RecordBuffer} (hbuild : Builder.build W = .ok b) {script : Script}
    (hscript : w.script b.automaton = .ok script) {n : Nat} (hresult : script.result = .ok n)
    (hsmall : script.bytes.length < 2 ^ 32) :
    ∃ x, Stream.ofBytes script.bytes.toArray = .ok x ∧ x.automaton.words none = ⟨W, none⟩ := by
  obtain ⟨p, root, rfl, h⟩ := Builder.finished_of_build hbuild
  obtain ⟨depth, hdepth, hspells⟩ := h.spells
  obtain ⟨-, x, hx, hrestored, -⟩ := Writer.stream_of_script h.readable h.acyclic hscript hresult
  have hlength := Stream.byteLength_of_ofBytes hx
  have hreach : x.WithinReach := by
    apply Stream.withinReach_of_byteLength
    rw [hlength, List.size_toArray]
    exact hsmall
  obtain ⟨hreadable, f, hiso, -⟩ := hrestored hreach
  exact ⟨x, hx, hreadable.words_eq (hspells.of_iso hiso) hdepth⟩

theorem run_dump {parse : List String → Option Command} {args : List String} {path : String}
    (hargs : parse args = some (.dump path)) {data : Bytes} (hdata : d.read path = .ok data) {x : Stream}
    (hx : Stream.ofBytes data = .ok x) {W : List Word} (hwords : x.automaton.words none = ⟨W, none⟩) :
    run d args parse = (⟨W.flatMap (· ++ [0x0a]), .success⟩, d) := by
  have hdump : dump x = ⟨W.flatMap (· ++ [0x0a]), .success⟩ := by
    rw [dump, hwords]
    rfl
  rw [run, hargs]
  simp only [inspect, openStream, hdata, hx, ← hdump]
  rfl

/-- A word list has been compiled: what is told of it, and what its output tells when it is dumped. -/
structure Compiled (d : Directory) (o : CompileOptions) (result : Outcome × Directory) (data : Bytes)
    (words : List Word) (file : Bytes) : Prop where
  input_eq : d.read o.input = .ok data
  ascending : Ascending words
  /-- The words are the lines that are not empty, each without one carriage return at its end. -/
  mem_iff : ∀ w, w ∈ words ↔
    w ≠ [] ∧ ∃ l ∈ data.toList.splitOn 0x0a, l = w ++ [0x0d] ∨ l.getLast? ≠ some 0x0d ∧ l = w
  outcome_eq : result.1 =
    .printing s!"Wrote {words.length} entries in {file.size} bytes to {quoted o.output}.\n"
  output_eq : result.2.read o.output = .ok file
  file_eq : ∃ b script, Builder.build words = .ok b ∧ (writer o).map (· b.automaton) = .ok (.ok script) ∧
    file = script.bytes.toArray
  /-- Offsets of 32 bits have to reach everything in the file. -/
  dump_eq : file.size < 2 ^ 32 → ∀ (parse : List String → Option Command) args, parse args = some (.dump o.output) →
    run result.2 args parse = (⟨words.flatMap (· ++ [0x0a]), .success⟩, result.2)

/-- What the words of a list have been written as. -/
structure Written (d : Directory) (o : CompileOptions) (result : Outcome × Directory) (data : Bytes) (words : List Word)
    (script : Script) : Prop where
  input_eq : d.read o.input = .ok data
  words_eq : words = if o.presorted then strippedLines data else sortEntries (strippedLines data)
  outcome_eq : result.1 =
    .printing s!"Wrote {words.length} entries in {script.bytes.length} bytes to {quoted o.output}.\n"
  output_eq : result.2.read o.output = .ok script.bytes.toArray
  written : ∃ (w : Writer) (b : RecordBuffer) (n : Nat), writer o = .ok w.script ∧ Builder.build words = .ok b ∧
    w.script b.automaton = .ok script ∧ script.result = .ok n

theorem exists_written {result : Outcome × Directory} (h : Compiling d o result) (hcode : result.1.code = 0) :
    ∃ data words script, Written d o result data words script := by
  cases h with
  | @written b count place d' w script n hbuild hcreate hwriter hflags hscript hresult =>
    obtain ⟨words, hread, hbuilt, rfl⟩ := buildFrom_eq_ok.1 hbuild
    obtain ⟨data, hdata, hwords⟩ := readEntries_eq_ok hread
    obtain ⟨p, root, rfl, hfinished⟩ := Builder.finished_of_build hbuilt
    obtain ⟨hlength, -⟩ := Writer.stream_of_script hfinished.readable hfinished.acyclic hscript hresult
    have houtput := Directory.read_put_of_create script.bytes.toArray hcreate
    obtain ⟨-, -, -, rfl⟩ := Directory.create_eq_ok hcreate
    rw [Directory.put_put] at houtput
    exact ⟨data, words, script, hdata, hwords, by rw [hlength], houtput, w, _, n, hwriter, hbuilt, hscript, hresult⟩
  | _ => cases hcode

theorem exists_compiled {result : Outcome × Directory} (h : Compiling d o result) (hcode : result.1.code = 0) :
    ∃ data words file, Compiled d o result data words file := by
  obtain ⟨data, words, script, hwritten⟩ := exists_written h hcode
  obtain ⟨w, b, n, hwriter, hbuilt, hscript, hresult⟩ := hwritten.written
  refine ⟨data, words, script.bytes.toArray, hwritten.input_eq, (Builder.ascending_of_build hbuilt).2, ?_,
    hwritten.outcome_eq, hwritten.output_eq, ?_, ?_⟩
  · intro w
    rw [hwritten.words_eq, mem_ite_sortEntries, mem_strippedLines]
  · refine ⟨b, script, hbuilt, ?_, rfl⟩
    rw [hwriter]
    exact congrArg Except.ok hscript
  · intro hsmall parse args hargs
    obtain ⟨x, hx, hspelled⟩ := words_of_script hbuilt hscript hresult hsmall
    exact run_dump hargs hwritten.output_eq hx hspelled

/-- The words of a list are accepted, if there is room, unless they are taken as they are and out of order. -/
theorem exists_buildFrom_iff {data : Bytes} (hdata : d.read o.input = .ok data)
    (hroom : Record.size * (1 + (neededArcs (strippedLines data)).ncard) < 2 ^ 32) :
    (∃ x, buildFrom d o = .ok x) ↔ (o.presorted = true → Ascending (strippedLines data)) := by
  have hread := readEntries_of_read hdata o.presorted
  constructor
  · rintro ⟨⟨b, count⟩, hbuild⟩ hpresorted
    obtain ⟨words, hwords, hbuilt, -⟩ := buildFrom_eq_ok.1 hbuild
    obtain rfl := Except.ok.inj (hread.symm.trans hwords)
    rw [if_pos hpresorted] at hbuilt
    exact (Builder.ascending_of_build hbuilt).2
  · intro hsorted
    generalize hwords : (if o.presorted then strippedLines data else sortEntries (strippedLines data)) = words at hread
    have hsame (w : Word) : w ∈ words ↔ w ∈ strippedLines data := by
      rw [← hwords]
      exact mem_ite_sortEntries
    have hasc : Ascending words := by
      rw [← hwords]
      cases hpresorted : o.presorted with
      | true => exact hsorted hpresorted
      | false => exact ascending_sortEntries _
    have hnonempty (w : Word) (hw : w ∈ words) : w ≠ [] := by
      simpa using (List.mem_filter.1 ((hsame w).1 hw)).2
    rcases Builder.build_cases hasc hnonempty with ⟨p, root, hbuilt, -⟩ | ⟨-, hlarge⟩
    · exact ⟨_, buildFrom_eq_ok.2 ⟨words, hread, hbuilt, rfl⟩⟩
    · rw [neededArcs_congr hsame] at hlarge
      omega

/-- What is written without an error is compiled. -/
theorem code_of_script {result : Outcome × Directory} (h : Compiling d o result) {created : String × Directory}
    (hcreate : d.create o.output = .ok created) {b : RecordBuffer} {count : Nat} (hbuild : buildFrom d o = .ok (b, count))
    {w : Writer} (hwriter : writer o = .ok w.script) {script : Script} (hscript : w.script b.automaton = .ok script) {n : Nat}
    (hresult : script.result = .ok n) : result.1.code = 0 := by
  cases h with
  | unbuilt hunbuilt => cases hunbuilt.symm.trans hbuild
  | uncreated _ huncreated => cases huncreated.symm.trans hcreate
  | refused _ _ hrefused => cases hrefused.symm.trans hwriter
  | @unwritten b' count' _ _ w' script' e hbuild' _ hwriter' _ hscript' hresult' =>
    obtain ⟨rfl, -⟩ := Prod.mk.inj (Except.ok.inj (hbuild.symm.trans hbuild'))
    have hsame : w'.script = w.script := Except.ok.inj (hwriter'.symm.trans hwriter)
    rw [hsame, hscript] at hscript'
    obtain rfl := Except.ok.inj hscript'
    cases hresult.symm.trans hresult'
  | written => rfl

/-- Into the uniform layout, what has been built is always written. -/
theorem code_of_uniform (hfiller : o.filler = none) (hseparator : o.annotation = none) (hformat : o.format = .uniform)
    {result : Outcome × Directory} (h : Compiling d o result) {x : RecordBuffer × Nat} (hbuild : buildFrom d o = .ok x)
    {created : String × Directory} (hcreate : d.create o.output = .ok created) : result.1.code = 0 := by
  have hwriter : writer o = .ok ({ flags := o.flags } : UniformWriter).script := by
    rw [writer, hformat, hfiller, hseparator]
    rfl
  have hseparators : ({ flags := o.flags } : UniformWriter).flags.separators = false := by
    show o.flags.separators = false
    rw [CompileOptions.flags]
    cases o.numbers <;> rfl
  obtain ⟨b, count⟩ := x
  obtain ⟨words, -, hbuilt, -⟩ := buildFrom_eq_ok.1 hbuild
  obtain ⟨p, root, rfl, hfinished⟩ := Builder.finished_of_build hbuilt
  obtain ⟨script, hscript⟩ :=
    UniformWriter.script_total { flags := o.flags } hfinished.readable fun _ => hfinished.acyclic
  obtain ⟨n, hresult⟩ := UniformWriter.result_of_script hfinished.readable (fun _ => hfinished.acyclic) hseparators hscript
  exact code_of_script (w := .uniform { flags := o.flags }) h hcreate hbuild hwriter hscript hresult

theorem built_of_code {result : Outcome × Directory} (h : Compiling d o result) (hcode : result.1.code = 0) :
    ∃ x, buildFrom d o = .ok x := by
  cases h with
  | written hbuild => exact ⟨_, hbuild⟩
  | _ => cases hcode

/-- A word list that is compiled comes back when it is dumped, in ascending order and each word once, and the numbers told
are those of its words and of the bytes written. Into the uniform layout it is always compiled, unless its words are taken
as they are and not in ascending order. -/
theorem run_compile {parse : List String → Option Command} {args : List String}
    (hargs : parse args = some (.compile o)) (hfiller : o.filler = none) (hseparator : o.annotation = none) :
    ((run d args parse).1.code = 0 → ∃ data words file, Compiled d o (run d args parse) data words file) ∧
    (o.format = .uniform → ∀ data place d', d.read o.input = .ok data → d.create o.output = .ok (place, d') →
      Record.size * (1 + (neededArcs (strippedLines data)).ncard) < 2 ^ 32 →
      ((run d args parse).1.code = 0 ↔ (o.presorted = true → Ascending (strippedLines data)))) := by
  have hrun : run d args parse = compile d o := by rw [run, hargs]
  have hcompiling := compile_compiling d o
  rw [hrun]
  refine ⟨exists_compiled hcompiling, ?_⟩
  intro hformat data place d' hdata hcreate hroom
  rw [← exists_buildFrom_iff hdata hroom]
  constructor
  · exact built_of_code hcompiling
  · rintro ⟨x, hbuild⟩
    exact code_of_uniform hfiller hseparator hformat hcompiling hbuild hcreate

theorem command?_compile {input output : String} (hinput : looksLikeOption input = false)
    (houtput : looksLikeOption output = false) : command? ["compile", input, output, "-f", "fsa5"] =
      some (.compile ⟨input, output, .uniform, false, false, none, none⟩) := by
  have hstart : "-f".startsWith "--" = false := by cbv
  have hmeaning : compileGrammar.meaning "-f" = .waiting "format" := by
    rw [Grammar.meaning, hstart, if_neg Bool.false_ne_true]
    rfl
  have hoption : looksLikeOption "-f" = true := by cbv
  have hcommand : looksLikeOption "compile" = false := by cbv
  have hvalue : looksLikeOption "fsa5" = false := by cbv
  have hends : looksLikeOption "--" = true := by cbv
  have hinputEnds : input ≠ "--" := by
    rintro rfl
    cases hinput.symm.trans hends
  have houtputEnds : output ≠ "--" := by
    rintro rfl
    cases houtput.symm.trans hends
  have hparse : compileGrammar.parse {} [input, output, "-f", "fsa5"] =
      .parsed ⟨[input, output], [], [("format", some "fsa5")]⟩ := by
    simp [Grammar.parse, hmeaning, hoption, hinput, houtput, hinputEnds, houtputEnds, hvalue, Parsed.addValue]
    simp [compileGrammar]
  have hformat : format? "fsa5" = some .uniform := by cbv
  have hoptions : compileOptions? ⟨[input, output], [], [("format", some "fsa5")]⟩ =
      some ⟨input, output, .uniform, false, false, none, none⟩ := by
    simp [compileOptions?, Parsed.char?, List.lookup, hformat]
  simp [command?, subcommand?, finish, hcommand, hparse, Parsed.distinct, hoptions]

def uniformOptions : CompileOptions := ⟨"in", "out", .uniform, false, false, none, none⟩

theorem command?_uniform : command? ["compile", "in", "out", "-f", "fsa5"] = some (.compile uniformOptions) := by
  apply command?_compile
  · cbv
  · cbv

theorem command?_dump : command? ["dump", "out"] = some (.dump "out") := by
  have hcommand : looksLikeOption "dump" = false := by cbv
  have hname : looksLikeOption "out" = false := by cbv
  have hparse : Grammar.parse { names := 1 } {} ["out"] = .parsed ⟨["out"], [], []⟩ := by
    simp [Grammar.parse, hname]
  simp [command?, subcommand?, finish, hcommand, hparse, Parsed.distinct, name?]

/-- Two words, one of them given twice, are written in 16 bytes and dumped. -/
theorem run_compile_twoFiles : ∃ data file,
    (run twoFiles ["compile", "in", "out", "-f", "fsa5"]).1.code = 0 ∧
    Compiled twoFiles uniformOptions (run twoFiles ["compile", "in", "out", "-f", "fsa5"]) data [[97], [98]] file ∧
    file.size = 16 ∧ (run (run twoFiles ["compile", "in", "out", "-f", "fsa5"]).2 ["dump", "out"]).1 =
      ⟨[97, 10, 98, 10], .success⟩ := by
  obtain ⟨hcompiled, huniform⟩ := run_compile (d := twoFiles) command?_uniform rfl rfl
  obtain ⟨d', hcreate⟩ := create_twoFiles
  have hlines : strippedLines #[98, 13, 10, 97, 10, 10, 98] = [[98], [97], [98]] := by cbv
  have hroom : Record.size * (1 + (neededArcs (strippedLines #[98, 13, 10, 97, 10, 10, 98])).ncard) < 2 ^ 32 := by
    have hle := ncard_neededArcs_le (strippedLines #[98, 13, 10, 97, 10, 10, 98])
    have hlengths : (([[98], [97], [98]] : List Word).map List.length).sum = 3 := rfl
    rw [hlines] at hle ⊢
    rw [Record.size]
    omega
  have hcode := (huniform rfl _ "out" d' read_twoFiles hcreate hroom).2 (fun h => by cases h)
  obtain ⟨data, words, file, h⟩ := hcompiled hcode
  obtain rfl := Except.ok.inj (read_twoFiles.symm.trans h.input_eq)
  have hasc : Ascending [[97], [98]] := by decide
  obtain rfl : words = [[97], [98]] := by
    refine h.ascending.eq_of_mem_iff hasc fun w => ?_
    rw [h.mem_iff, ← mem_strippedLines, hlines]
    grind
  have hsize : file.size = 16 := by
    obtain ⟨b, script, hbuild, hscript, rfl⟩ := h.file_eq
    have hlength : (do
        let b ← (Builder.build [[97], [98]]).toOption
        let script ← (({ flags := uniformOptions.flags } : UniformWriter).script b.automaton).toOption
        return script.bytes.length) = some 16 := by cbv
    have hwritten : ({ flags := uniformOptions.flags } : UniformWriter).script b.automaton = .ok script :=
      Except.ok.inj hscript
    simpa [hbuild, hwritten, Except.toOption] using hlength
  refine ⟨_, file, hcode, h, hsize, ?_⟩
  rw [h.dump_eq (by omega) _ _ command?_dump]
  rfl

end WordAutomata.Tool
