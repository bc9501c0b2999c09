import WordAutomata.Proofs.Reading
import WordAutomata.Tool.Directory

namespace WordAutomata.Directory

theorem intercalate_segments (path : String) : "/".intercalate (segments path) = path := by
  have hslash : "/".toList = ['/'] := rfl
  have hlists : (segments path).map String.toList = path.toList.splitOn '/' := by
    simp [segments, Function.comp_def]
  apply String.toList_injective
  rw [String.toList_intercalate, hlists, hslash, List.intercalate_splitOn]

/-- A place does not lie below itself. -/
theorem notMem_ancestors (place : String) : place ∉ ancestors place := by
  intro hmem
  rw [ancestors, List.mem_map] at hmem
  obtain ⟨n, hn, hplace⟩ := hmem
  have hpos : 0 < n ∧ n < (segments place).length := by
    rw [← List.drop_one, List.range_eq_range', List.drop_range', List.mem_range'_1] at hn
    omega
  have htake : (segments place).take n ≠ [] := by
    rw [← List.length_pos_iff, List.length_take]
    omega
  have hdrop : (segments place).drop n ≠ [] := by
    rw [← List.length_pos_iff, List.length_drop]
    omega
  have hwhole := intercalate_segments place
  rw [← List.take_append_drop n (segments place), String.intercalate_append_of_ne_nil htake hdrop, hplace] at hwhole
  have hlength := congrArg String.length hwhole
  simp only [String.length_append] at hlength
  have hslash : "/".length = 1 := rfl
  omega

variable (d : Directory) (place : String) (data : Bytes)

@[simp] theorem get?_put : (d.put place data).get? place = some data := by
  simp [get?, put]

theorem get?_put_of_ne {p : String} (h : p ≠ place) : (d.put place data).get? p = d.get? p := by
  have hsame : (fun f : String × Bytes => decide (f.1 ≠ place) && decide (f.1 = p)) = fun f => decide (f.1 = p) := by
    funext f
    by_cases hf : f.1 = p <;> simp [hf, h]
  rw [get?, get?, put, List.find?_cons_of_neg (by simpa using h.symm), List.find?_filter]
  simp only [Bool.decide_and, Bool.decide_eq_true, hsame]

@[simp] theorem put_put (old : Bytes) : (d.put place old).put place data = d.put place data := by
  simp [put, List.filter_filter]

/-- Folders stay, and those that the new file lies in are there. -/
theorem hasFolder_put (p : String) :
    (d.put place data).hasFolder p = (d.hasFolder p || (ancestors place).contains p) := by
  rw [Bool.eq_iff_iff]
  simp only [hasFolder, put, List.any_cons, Bool.or_eq_true, List.any_eq_true, List.mem_filter, decide_eq_true_eq]
  constructor
  · rintro (h | h | ⟨f, ⟨hf, -⟩, hp⟩)
    · exact .inl (.inl h)
    · exact .inr h
    · exact .inl (.inr ⟨f, hf, hp⟩)
  · rintro ((h | ⟨f, hf, hp⟩) | h)
    · exact .inl h
    · by_cases hplace : f.1 = place
      · exact .inr (.inl (hplace ▸ hp))
      · exact .inr (.inr ⟨f, ⟨hf, hplace⟩, hp⟩)
    · exact .inr (.inl h)

/-- Where a path leads if it does not lead to a folder. -/
def Names (e : Except IoCause Entry) (place : String) : Prop :=
  e = .ok (.vacant place) ∨ ∃ old, e = .ok (.file place old)

variable {d place}

theorem step_folder {folder part p : String} (h : d.step folder part = .ok (.folder p)) :
    (d.put place data).step folder part = .ok (.folder p) := by
  rw [step] at h ⊢
  split at h
  · cases h
  · rename_i hname
    rw [if_neg hname]
    dsimp only at h ⊢
    split at h
    · rename_i hfolder
      rw [hasFolder_put, hfolder, Bool.true_or]
      simpa using h
    · split at h <;> cases h

theorem step_names {folder part : String} (h : Names (d.step folder part) place) :
    (d.put place data).step folder part = .ok (.file place data) := by
  rw [step] at h ⊢
  by_cases hname : maxName < part.utf8ByteSize
  · simp [hname, Names] at h
  · rw [if_neg hname] at h ⊢
    cases hfolder : d.hasFolder (advance folder part) with
    | true => simp [hfolder, Names] at h
    | false =>
      have hplace : advance folder part = place := by
        cases hget : d.get? (advance folder part) <;> simpa [hfolder, hget, Names] using h
      rw [hplace] at hfolder ⊢
      simp [hasFolder_put, hfolder, notMem_ancestors]

/-- A path that leads to a place leads to the file that is put there. -/
theorem walk_names {folder : String} {parts : List String} (h : Names (d.walk folder parts) place) :
    (d.put place data).walk folder parts = .ok (.file place data) := by
  induction parts generalizing folder with
  | nil => simp [walk, Names] at h
  | cons part rest ih =>
    cases rest with
    | nil => exact step_names data h
    | cons next rest =>
      rw [walk] at h ⊢
      · cases hstep : d.step folder part with
        | error e => simp [hstep, Names] at h
        | ok e =>
          cases e with
          | folder p =>
            rw [step_folder data hstep]
            rw [hstep] at h
            exact ih h
          | file p old => simp [hstep, Names] at h
          | vacant p => simp [hstep, Names] at h
      all_goals simp

theorem create_eq_ok {path : String} {d' : Directory} (h : d.create path = .ok (place, d')) :
    checkPath path = .ok () ∧ path.endsWith "/" = false ∧ Names (d.walk (start path) (parts path)) place ∧
      d' = d.put place #[] := by
  obtain ⟨⟨⟩, hcheck, h⟩ := bind_eq_ok.1 h
  cases hends : path.endsWith "/" with
  | true =>
    rw [if_pos hends] at h
    obtain ⟨e, -, h⟩ := bind_eq_ok.1 h
    cases e <;> cases h
  | false =>
    rw [if_neg (by simp [hends])] at h
    obtain ⟨e, hwalk, h⟩ := bind_eq_ok.1 h
    cases e with
    | folder p => cases h
    | vacant p =>
      obtain ⟨rfl, rfl⟩ : p = place ∧ d.put p #[] = d' := by simpa using h
      exact ⟨hcheck, rfl, .inl hwalk, rfl⟩
    | file p old =>
      obtain ⟨rfl, rfl⟩ : p = place ∧ d.put p #[] = d' := by simpa using h
      exact ⟨hcheck, rfl, .inr ⟨old, hwalk⟩, rfl⟩

/-- What is put into a file that has been made is read by the path that it has been made by. -/
theorem read_put_of_create {path : String} {d' : Directory} (h : d.create path = .ok (place, d')) :
    (d'.put place data).read path = .ok data := by
  obtain ⟨hcheck, hends, hnames, rfl⟩ := create_eq_ok h
  rw [put_put, read, hcheck, walk_names data hnames]
  simp [hends]

end WordAutomata.Directory
