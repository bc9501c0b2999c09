import Mathlib.Data.Finset.Max
import WordAutomata.Proofs.Dump
import WordAutomata.Proofs.Lines

namespace WordAutomata.Tool

theorem strippedLines_flatMap {words : List Word} (h : ∀ w ∈ words, (0x0a : UInt8) ∉ w) :
    strippedLines (words.flatMap (· ++ [0x0a])).toArray = (words.map dropReturn).filter (· ≠ []) := by
  rw [strippedLines, List.toList_toArray, splitOn_flatMap h, List.map_append, List.filter_append]
  have hempty : ([[]].map dropReturn).filter (· ≠ []) = [] := rfl
  rw [hempty, List.append_nil]

theorem sortEntries_of_ascending {words : List Word} (h : Ascending words) : sortEntries words = words :=
  (ascending_sortEntries words).eq_of_mem_iff h fun _ => mem_sortEntries

/-- Words that do not end with a carriage return are read as they are. -/
theorem map_dropReturn_of_unreturned {words : List Word} (h : ∀ w ∈ words, w.getLast? ≠ some 0x0d) :
    words.map dropReturn = words := by
  conv_rhs => rw [← List.map_id words]
  apply List.map_congr_left
  intro w hw
  exact dropReturn_eq.2 (.inr ⟨h w hw, rfl⟩)

/-- If taking carriage returns off makes no difference to some words, there are none. -/
theorem unreturned_of_mem_iff {words : List Word} (h : ∀ w, w ∈ words ↔ w ∈ (words.map dropReturn).filter (· ≠ [])) :
    ∀ w ∈ words, w.getLast? ≠ some 0x0d := by
  -- A word with a carriage return comes from one with two, and so on: there would be no longest one.
  have hlonger (w : Word) (hw : w ∈ words) (hlast : w.getLast? = some 0x0d) : w ++ [0x0d] ∈ words := by
    obtain ⟨hmap, -⟩ := List.mem_filter.1 ((h w).1 hw)
    obtain ⟨v, hv, hvw⟩ := List.mem_map.1 hmap
    rcases dropReturn_eq.1 hvw with rfl | ⟨hvlast, rfl⟩
    · exact hv
    · exact absurd hlast hvlast
  intro w hw hlast
  let returned := words.toFinset.filter fun w => w.getLast? = some 0x0d
  have hmem (v : Word) : v ∈ returned ↔ v ∈ words ∧ v.getLast? = some 0x0d := by simp [returned]
  obtain ⟨v, hv, hlongest⟩ := returned.exists_max_image List.length ⟨w, (hmem w).2 ⟨hw, hlast⟩⟩
  obtain ⟨hv, hvlast⟩ := (hmem v).1 hv
  have hle := hlongest (v ++ [0x0d]) ((hmem _).2 ⟨hlonger v hv hvlast, by simp⟩)
  rw [List.length_append, List.length_singleton] at hle
  omega

/-- A word that ends with a carriage return comes from a line that ends with two. -/
theorem unreturned_iff {data : Bytes} : (∀ w ∈ strippedLines data, w.getLast? ≠ some 0x0d) ↔
    ∀ l ∈ data.toList.splitOn 0x0a, ¬[0x0d, 0x0d] <:+ l := by
  constructor
  · rintro h l hl ⟨u, rfl⟩
    have hword : u ++ [0x0d] ∈ strippedLines data :=
      mem_strippedLines.2 ⟨by simp, _, hl, .inl (by simp)⟩
    exact h _ hword (by simp)
  · intro h w hw hlast
    obtain ⟨-, l, hl, rfl | ⟨hother, rfl⟩⟩ := mem_strippedLines.1 hw
    · obtain ⟨u, rfl⟩ := List.getLast?_eq_some_iff.1 hlast
      exact h _ hl ⟨u, by simp⟩
    · exact absurd hlast hother

theorem lineless_strippedLines {data : Bytes} {w : Word} (hw : w ∈ strippedLines data) : (0x0a : UInt8) ∉ w := by
  obtain ⟨-, l, hl, h⟩ := mem_strippedLines.1 hw
  have hline := notMem_of_mem_splitOn hl
  rcases h with rfl | ⟨-, rfl⟩
  · intro hmem
    exact hline (List.mem_append_left _ hmem)
  · exact hline

section

variable {d d' : Directory} {o : CompileOptions} {result result' : Outcome × Directory} {data data' : Bytes}
  {words words' : List Word} {script script' : Script}

namespace Written

theorem mem_iff (h : Written d o result data words script) (w : Word) : w ∈ words ↔ w ∈ strippedLines data := by
  rw [h.words_eq, mem_ite_sortEntries]

theorem ascending (h : Written d o result data words script) : Ascending words := by
  obtain ⟨w, b, n, -, hbuilt, -⟩ := h.written
  exact (Builder.ascending_of_build hbuilt).2

theorem run_dump_eq (h : Written d o result data words script) (hsmall : script.bytes.length < 2 ^ 32)
    {parse : List String → Option Command} {args : List String} (hargs : parse args = some (.dump o.output)) :
    run result.2 args parse = (⟨words.flatMap (· ++ [0x0a]), .success⟩, result.2) := by
  obtain ⟨w, b, n, -, hbuilt, hscript, hresult⟩ := h.written
  obtain ⟨x, hx, hspelled⟩ := words_of_script hbuilt hscript hresult hsmall
  exact run_dump hargs h.output_eq hx hspelled

/-- With the same options, the same words make the same file. -/
theorem script_eq (h : Written d o result data words script) {input output : String}
    (h' : Written d' { o with input := input, output := output } result' data' words script') : script' = script := by
  obtain ⟨w, b, n, hwriter, hbuilt, hscript, -⟩ := h.written
  obtain ⟨w', b', n', hwriter', hbuilt', hscript', -⟩ := h'.written
  have hwriters : w'.script = w.script := Except.ok.inj (hwriter'.symm.trans hwriter)
  obtain rfl := Except.ok.inj (hbuilt.symm.trans hbuilt')
  rw [hwriters, hscript] at hscript'
  exact (Except.ok.inj hscript').symm

/-- What is in a file tells the words that have been written to it. -/
theorem words_unique {o' : CompileOptions} (h : Written d o result data words script)
    (h' : Written d' o' result' data' words' script') (hsmall : script.bytes.length < 2 ^ 32)
    (hbytes : script'.bytes = script.bytes) : words' = words := by
  obtain ⟨w, b, n, -, hbuilt, hscript, hresult⟩ := h.written
  obtain ⟨w', b', n', -, hbuilt', hscript', hresult'⟩ := h'.written
  obtain ⟨x, hx, hwords⟩ := words_of_script hbuilt hscript hresult hsmall
  obtain ⟨x', hx', hwords'⟩ := words_of_script hbuilt' hscript' hresult' (hbytes ▸ hsmall)
  rw [hbytes] at hx'
  obtain rfl := Except.ok.inj (hx.symm.trans hx')
  exact congrArg Readout.items (hwords'.symm.trans hwords)

/-- What is dumped is read as the same words, one carriage return taken off at the end of each. -/
theorem dumped_entries (h : Written d o result data words script) :
    strippedLines (words.flatMap (· ++ [0x0a])).toArray = (words.map dropReturn).filter (· ≠ []) := by
  apply strippedLines_flatMap
  intro w hw
  exact lineless_strippedLines ((h.mem_iff w).1 hw)

theorem unreturned_iff (h : Written d o result data words script) : (∀ w ∈ words, w.getLast? ≠ some 0x0d) ↔
    ∀ l ∈ data.toList.splitOn 0x0a, ¬[0x0d, 0x0d] <:+ l := by
  rw [← Tool.unreturned_iff]
  exact forall_congr' fun w => imp_congr_left (h.mem_iff w)

/-- Without carriage returns at their ends, the words that have been dumped are taken up again as they are. -/
theorem taken_up (h : Written d o result data words script) (hunreturned : ∀ w ∈ words, w.getLast? ≠ some 0x0d)
    (presorted : Bool) :
    (if presorted then strippedLines (words.flatMap (· ++ [0x0a])).toArray
      else sortEntries (strippedLines (words.flatMap (· ++ [0x0a])).toArray)) = words := by
  have hnonempty : words.filter (· ≠ []) = words := by
    apply List.filter_eq_self.2
    intro w hw
    exact (List.mem_filter.1 ((h.mem_iff w).1 hw)).2
  have hsame : strippedLines (words.flatMap (· ++ [0x0a])).toArray = words := by
    rw [h.dumped_entries, map_dropReturn_of_unreturned hunreturned, hnonempty]
  rw [hsame, sortEntries_of_ascending h.ascending, ite_self]

end Written

end

/-- A word list is compiled to a file, of which offsets of 32 bits reach everything. What is dumped of it, compiled again
with the same options, makes the same file if no line of the list ends with two carriage returns, and another one if some
line does. -/
theorem recompiled {d d' : Directory} {o : CompileOptions} {input output : String}
    {parse : List String → Option Command} {args dumpArgs args' : List String}
    (hargs : parse args = some (.compile o)) (hdump : parse dumpArgs = some (.dump o.output))
    (hargs' : parse args' = some (.compile { o with input := input, output := output }))
    {data file : Bytes} (hdata : d.read o.input = .ok data) (hcode : (run d args parse).1.code = 0)
    (hfile : (run d args parse).2.read o.output = .ok file) (hsmall : file.size < 2 ^ 32)
    (hinput : d'.read input = .ok (run (run d args parse).2 dumpArgs parse).1.stdout.toArray) :
    (run (run d args parse).2 dumpArgs parse).1.code = 0 ∧
    ((∀ l ∈ data.toList.splitOn 0x0a, ¬[0x0d, 0x0d] <:+ l) → (∃ created, d'.create output = .ok created) →
      (run d' args' parse).1.code = 0) ∧
    ((run d' args' parse).1.code = 0 → ∃ file', (run d' args' parse).2.read output = .ok file' ∧
      (file' = file ↔ ∀ l ∈ data.toList.splitOn 0x0a, ¬[0x0d, 0x0d] <:+ l)) := by
  have hrun : run d args parse = compile d o := by rw [run, hargs]
  have hrun' : run d' args' parse = compile d' { o with input := input, output := output } := by rw [run, hargs']
  have hcompiling := compile_compiling d' { o with input := input, output := output }
  rw [hrun] at hcode hfile hinput ⊢
  rw [hrun']
  obtain ⟨_, words, script, h⟩ := exists_written (compile_compiling d o) hcode
  obtain rfl := Except.ok.inj (hdata.symm.trans h.input_eq)
  obtain rfl := Except.ok.inj (hfile.symm.trans h.output_eq)
  rw [List.size_toArray] at hsmall
  rw [h.run_dump_eq hsmall hdump] at hinput ⊢
  rw [← h.unreturned_iff]
  refine ⟨rfl, ?_, ?_⟩
  · rintro hunreturned ⟨created, hcreate⟩
    obtain ⟨w, b, n, hwriter, hbuilt, hscript, hresult⟩ := h.written
    have hread := readEntries_of_read hinput o.presorted
    rw [h.taken_up hunreturned] at hread
    exact code_of_script hcompiling hcreate (buildFrom_eq_ok.2 ⟨words, hread, hbuilt, rfl⟩) hwriter hscript hresult
  · intro hcode'
    obtain ⟨_, words', script', h'⟩ := exists_written hcompiling hcode'
    obtain rfl := Except.ok.inj (hinput.symm.trans h'.input_eq)
    refine ⟨_, h'.output_eq, ?_⟩
    constructor
    · intro hsame
      obtain rfl := h.words_unique h' hsmall (List.toArray_inj hsame)
      apply unreturned_of_mem_iff
      intro w
      rw [← h.dumped_entries]
      exact h'.mem_iff w
    · intro hunreturned
      obtain rfl : words' = words := h'.words_eq.trans (h.taken_up hunreturned o.presorted)
      rw [h.script_eq h']

/-- A folder with a word list and another text. -/
def listAndText (list text : Bytes) : Directory := { files := [("in", list), ("text", text)] }

section

variable (list text : Bytes)

theorem read_list : (listAndText list text).read "in" = .ok list := by
  have hends : "in".endsWith "/" = false := by cbv
  have hstart : Directory.start "in" = "" := by cbv
  have hcheck : Directory.checkPath "in" = .ok () := rfl
  have hwalk : (listAndText list text).walk "" (Directory.parts "in") = .ok (.file "in" list) := by cbv
  simp [Directory.read, hends, hstart, hcheck, hwalk]

theorem read_text : (listAndText list text).read "text" = .ok text := by
  have hends : "text".endsWith "/" = false := by cbv
  have hstart : Directory.start "text" = "" := by cbv
  have hcheck : Directory.checkPath "text" = .ok () := rfl
  have hwalk : (listAndText list text).walk "" (Directory.parts "text") = .ok (.file "text" text) := by cbv
  simp [Directory.read, hends, hstart, hcheck, hwalk]

theorem create_output : ∃ created, (listAndText list text).create "out" = .ok created := by
  have hends : "out".endsWith "/" = false := by cbv
  have hstart : Directory.start "out" = "" := by cbv
  have hcheck : Directory.checkPath "out" = .ok () := rfl
  have hwalk : (listAndText list text).walk "" (Directory.parts "out") = .ok (.vacant "out") := by cbv
  simp [Directory.create, hends, hstart, hcheck, hwalk]

end

/-- Words that are given out of order and in several lines are written in the uniform layout, in so many bytes. -/
theorem written_uniform {d : Directory} {input : String} (hinput : looksLikeOption input = false) {data : Bytes}
    (hdata : d.read input = .ok data) {created : String × Directory} (hcreate : d.create "out" = .ok created)
    {words : List Word} (hwords : sortEntries (strippedLines data) = words) {n : Nat}
    (hlength : (do
      let b ← (Builder.build words).toOption
      let script ← (({ flags := .empty } : UniformWriter).script b.automaton).toOption
      return script.bytes.length) = some n) :
    ∃ script, (run d ["compile", input, "out", "-f", "fsa5"]).1.code = 0 ∧
      Written d ⟨input, "out", .uniform, false, false, none, none⟩ (run d ["compile", input, "out", "-f", "fsa5"]) data words
        script ∧ script.bytes.length = n := by
  have hout : looksLikeOption "out" = false := by cbv
  have hrun : run d ["compile", input, "out", "-f", "fsa5"] =
      compile d ⟨input, "out", .uniform, false, false, none, none⟩ := by rw [run, command?_compile hinput hout]
  have hread : readEntries d input false = .ok words := by
    rw [readEntries_of_read hdata, if_neg Bool.false_ne_true, hwords]
  cases hbuild : Builder.build words with
  | error e => simp [hbuild, Except.toOption] at hlength
  | ok b =>
    rw [hrun]
    have hcompiling := compile_compiling d ⟨input, "out", .uniform, false, false, none, none⟩
    have hcode := code_of_uniform rfl rfl rfl hcompiling (buildFrom_eq_ok.2 ⟨words, hread, hbuild, rfl⟩) hcreate
    obtain ⟨data', words', script, h⟩ := exists_written hcompiling hcode
    obtain rfl := Except.ok.inj (hdata.symm.trans h.input_eq)
    obtain rfl : words' = words := h.words_eq.trans hwords
    refine ⟨script, hcode, h, ?_⟩
    obtain ⟨w, b', m, hwriter, hbuilt, hscript, -⟩ := h.written
    obtain rfl := Except.ok.inj (hbuild.symm.trans hbuilt)
    have hscript' : ({ flags := .empty } : UniformWriter).script b.automaton = .ok script := by
      rw [← hscript]
      exact congrArg (· b.automaton) (Except.ok.inj hwriter)
    simpa [hbuild, hscript', Except.toOption] using hlength

/-- A word list with carriage returns at the end of a line and in a word, and what is dumped of it. -/
def plainList : Directory := listAndText #[98, 13, 10, 97, 13, 98, 10, 10, 98] #[97, 13, 98, 10, 98, 10]

theorem recompiled_plain : ∃ file, (run plainList ["compile", "in", "out", "-f", "fsa5"]).1.code = 0 ∧
    (run plainList ["compile", "in", "out", "-f", "fsa5"]).2.read "out" = .ok file ∧ file.size = 20 ∧
    (run (run plainList ["compile", "in", "out", "-f", "fsa5"]).2 ["dump", "out"]).1 =
      ⟨[97, 13, 98, 10, 98, 10], .success⟩ ∧
    (run plainList ["compile", "text", "out", "-f", "fsa5"]).1.code = 0 ∧
    (run plainList ["compile", "text", "out", "-f", "fsa5"]).2.read "out" = .ok file := by
  obtain ⟨created, hcreate⟩ := create_output #[98, 13, 10, 97, 13, 98, 10, 10, 98] #[97, 13, 98, 10, 98, 10]
  have hdata : plainList.read "in" = .ok #[98, 13, 10, 97, 13, 98, 10, 10, 98] := read_list _ _
  have htext : plainList.read "text" = .ok #[97, 13, 98, 10, 98, 10] := read_text _ _
  have hin : looksLikeOption "in" = false := by cbv
  have hinText : looksLikeOption "text" = false := by cbv
  have hout : looksLikeOption "out" = false := by cbv
  have hwords : sortEntries (strippedLines #[98, 13, 10, 97, 13, 98, 10, 10, 98]) = [[97, 13, 98], [98]] := by cbv
  have hlines : (#[98, 13, 10, 97, 13, 98, 10, 10, 98] : Bytes).toList.splitOn 0x0a =
      [[98, 13], [97, 13, 98], [], [98]] := by cbv
  have hunreturned : ∀ l ∈ (#[98, 13, 10, 97, 13, 98, 10, 10, 98] : Bytes).toList.splitOn 0x0a, ¬[0x0d, 0x0d] <:+ l := by
    rw [hlines]
    decide
  obtain ⟨script, hcode, h, hlength⟩ := written_uniform hin hdata hcreate hwords (n := 20) (by cbv)
  have hsize : script.bytes.toArray.size = 20 := by rw [List.size_toArray, hlength]
  have hdumped := h.run_dump_eq (by omega) command?_dump
  have hinput : plainList.read "text" =
      .ok (run (run plainList ["compile", "in", "out", "-f", "fsa5"]).2 ["dump", "out"]).1.stdout.toArray := by
    rw [hdumped]
    exact htext
  obtain ⟨-, hagain, hsame⟩ := recompiled (o := ⟨"in", "out", .uniform, false, false, none, none⟩)
    (command?_compile hin hout) command?_dump (command?_compile hinText hout) hdata hcode h.output_eq (by omega) hinput
  have hcode' := hagain hunreturned ⟨created, hcreate⟩
  obtain ⟨file', hfile', hiff⟩ := hsame hcode'
  refine ⟨_, hcode, h.output_eq, hsize, ?_, hcode', ?_⟩
  · rw [hdumped]
    rfl
  · rw [hfile', hiff.2 hunreturned]

/-- A word that ends with a carriage return, its line ending with two, and what is dumped of it. -/
def returnedList : Directory := listAndText #[97, 13, 13, 10] #[97, 13, 10]

/-- A word that ends with a carriage return is dumped, and compiled again without it. -/
theorem recompiled_returned : ∃ file file', (run returnedList ["compile", "in", "out", "-f", "fsa5"]).1.code = 0 ∧
    (run returnedList ["compile", "in", "out", "-f", "fsa5"]).2.read "out" = .ok file ∧
    (run (run returnedList ["compile", "in", "out", "-f", "fsa5"]).2 ["dump", "out"]).1 = ⟨[97, 13, 10], .success⟩ ∧
    returnedList.read "text" = .ok #[97, 13, 10] ∧
    (run returnedList ["compile", "text", "out", "-f", "fsa5"]).1.code = 0 ∧
    (run returnedList ["compile", "text", "out", "-f", "fsa5"]).2.read "out" = .ok file' ∧ file' ≠ file := by
  obtain ⟨created, hcreate⟩ := create_output #[97, 13, 13, 10] #[97, 13, 10]
  have hdata : returnedList.read "in" = .ok #[97, 13, 13, 10] := read_list _ _
  have htext : returnedList.read "text" = .ok #[97, 13, 10] := read_text _ _
  have hwords : sortEntries (strippedLines #[97, 13, 13, 10]) = [[97, 13]] := by cbv
  have hwords' : sortEntries (strippedLines #[97, 13, 10]) = [[97]] := by cbv
  obtain ⟨script, hcode, h, hlength⟩ := written_uniform (by cbv) hdata hcreate hwords (n := 16) (by cbv)
  obtain ⟨script', hcode', h', hlength'⟩ := written_uniform (by cbv) htext hcreate hwords' (n := 14) (by cbv)
  refine ⟨_, _, hcode, h.output_eq, ?_, htext, hcode', h'.output_eq, ?_⟩
  · rw [h.run_dump_eq (by omega) command?_dump]
    rfl
  · intro hsame
    have hbytes := List.toArray_inj hsame
    rw [hbytes] at hlength'
    omega

end WordAutomata.Tool
