import WordAutomata.Dot
import WordAutomata.Proofs.Lines

namespace WordAutomata.Dot

/-- The number by which a drawing names a state. -/
def nameText (s : State) : List Char := digits s.offset.toNat

def countText (count : Option Nat) : List Char := count.elim [] digits

def targetText (target : Option State) : List Char := target.elim "stop".toList nameText

def styleText (isFinal : Bool) : List Char := if isFinal then ",style=bold".toList else []

theorem toList_name (s : State) : (toString s.offset).toList = nameText s := toList_toString s.offset.toNat

theorem toString_text (s : String) : toString s = s := rfl

theorem toList_hexByte (c : UInt8) :
    (Text.hexByte c).toList = ['0', 'x', Nat.digitChar (c.toNat / 16), Nat.digitChar (c.toNat % 16)] := by
  simp [Text.hexByte, Text.hexPair]

theorem toList_rootLine (r : State) : (rootLine r).toList = "  initial -> ".toList ++ (nameText r ++ ";".toList) := by
  simp [rootLine, toList_name, toString_text]

theorem toList_stateLine (s : State) (count : Option Nat) : (stateLine s count).toList =
    "  ".toList ++ (nameText s ++ (" [shape=circle,label=\"".toList ++ (countText count ++ "\"];".toList))) := by
  cases count with
  | none => simp [stateLine, countText, toList_name, toString_text]
  | some n => simp [stateLine, countText, toList_name, toString_text, digits]

theorem toList_arcLine (s : State) (t : Transition) : (arcLine s t).toList =
    "  ".toList ++ (nameText s ++ (" -> ".toList ++ (targetText t.target ++ (" [label=\"".toList ++
      ((labelText t.label).toList ++ ("\"".toList ++ (styleText t.isFinal ++ "];".toList))))))) := by
  obtain ⟨c, f, target⟩ := t
  cases target <;> cases f <;> simp [arcLine, targetText, styleText, toList_name, toString_text]

theorem isAlphanum_countText (count : Option Nat) : ∀ c ∈ countText count, c.isAlphanum = true := by
  cases count with
  | none => simp [countText]
  | some n => exact fun _ => isAlphanum_of_mem_digits

theorem isAlphanum_nameText (s : State) : ∀ c ∈ nameText s, c.isAlphanum = true := fun _ => isAlphanum_of_mem_digits

theorem isAlphanum_targetText (t : Option State) : ∀ c ∈ targetText t, c.isAlphanum = true := by
  cases t with
  | none =>
    have hstop : "stop".toList.all Char.isAlphanum = true := by decide
    exact List.all_eq_true.1 hstop
  | some s => exact isAlphanum_nameText s

theorem isAlphanum_labelText (c : UInt8) : ∀ x ∈ (labelText c).toList, x.isAlphanum = true := by
  have hdigit : ∀ n < 16, (Nat.digitChar n).isAlphanum = true := by decide
  have hlt := c.toNat_lt
  rw [labelText]
  split
  · rename_i halnum
    rw [Char.toString_eq_singleton, String.toList_singleton]
    simpa using halnum
  · rw [toList_hexByte]
    simp only [List.forall_mem_cons]
    exact ⟨by decide, by decide, hdigit _ (by omega), hdigit _ (by omega), by simp⟩

theorem nameText_injective {s t : State} (h : nameText s = nameText t) : s = t := by
  have hoffset := UInt32.toNat_inj.1 (digits_injective h)
  cases s
  cases t
  exact congrArg State.mk hoffset

theorem countText_injective {c d : Option Nat} (h : countText c = countText d) : c = d := by
  cases c with
  | none =>
    cases d with
    | none => rfl
    | some n => exact absurd h.symm digits_ne_nil
  | some m =>
    cases d with
    | none => exact absurd h digits_ne_nil
    | some n => exact congrArg some (digits_injective h)

theorem targetText_injective {t u : Option State} (h : targetText t = targetText u) : t = u := by
  have hstop (s : State) : "stop".toList ≠ nameText s := by
    intro h
    have hs : 's' ∈ nameText s := h ▸ by simp
    exact absurd (isDigit_of_mem_digits hs) (by decide)
  cases t with
  | none =>
    cases u with
    | none => rfl
    | some s => exact absurd h (hstop s)
  | some r =>
    cases u with
    | none => exact absurd h.symm (hstop r)
    | some s => exact congrArg some (nameText_injective h)

theorem digitChar_injective {m n : Nat} (hm : m < 16) (hn : n < 16) (h : Nat.digitChar m = Nat.digitChar n) : m = n := by
  have hall : ∀ m < 16, ∀ n < 16, Nat.digitChar m = Nat.digitChar n → m = n := by decide
  exact hall m hm n hn h

theorem ofNat_injective {c d : UInt8} (h : Char.ofNat c.toNat = Char.ofNat d.toNat) : c = d := by
  have hvalid (b : UInt8) : (Char.ofNat b.toNat).toNat = b.toNat := by
    have hlt := b.toNat_lt
    rw [Char.ofNat, dif_pos (.inl (by omega))]
    rfl
  apply UInt8.toNat_inj.1
  rw [← hvalid c, ← hvalid d, h]

/-- A label drawn as itself is a single character, and four stand for any other. -/
theorem labelText_injective {c d : UInt8} (h : (labelText c).toList = (labelText d).toList) : c = d := by
  have hlt := c.toNat_lt
  have hlt' := d.toNat_lt
  simp only [labelText] at h
  split at h
  · split at h
    · apply ofNat_injective
      simpa using h
    · rw [toList_hexByte] at h
      simp at h
  · split at h
    · rw [toList_hexByte] at h
      simp at h
    · rw [toList_hexByte, toList_hexByte] at h
      simp only [List.cons.injEq, true_and, and_true] at h
      obtain ⟨hhigh, hlow⟩ := h
      have hdiv := digitChar_injective (by omega) (by omega) hhigh
      have hmod := digitChar_injective (by omega) (by omega) hlow
      apply UInt8.toNat_inj.1
      omega

theorem styleText_injective {f g : Bool} (h : styleText f ++ "];".toList = styleText g ++ "];".toList) : f = g := by
  cases f <;> cases g <;> simp [styleText] at h ⊢

/-- A line of a state and one of an arc go on alike as long as they name the same state. -/
theorem nameText_append {s t : State} {xs ys : List Char} (hxs : ∀ x ∈ xs.head?, ¬x.isAlphanum = true)
    (hys : ∀ y ∈ ys.head?, ¬y.isAlphanum = true) (h : "  ".toList ++ (nameText s ++ xs) = "  ".toList ++ (nameText t ++ ys)) :
    s = t ∧ xs = ys := by
  obtain ⟨hname, hrest⟩ :=
    append_unique (isAlphanum_nameText s) (isAlphanum_nameText t) hxs hys (List.append_cancel_left h)
  exact ⟨nameText_injective hname, hrest⟩

theorem rootLine_injective {r r' : State} (h : rootLine r = rootLine r') : r = r' := by
  have hchars := congrArg String.toList h
  rw [toList_rootLine, toList_rootLine] at hchars
  exact nameText_injective (List.append_cancel_right (List.append_cancel_left hchars))

theorem stateLine_injective {s t : State} {c d : Option Nat} (h : stateLine s c = stateLine t d) : s = t ∧ c = d := by
  have hchars := congrArg String.toList h
  rw [toList_stateLine, toList_stateLine] at hchars
  obtain ⟨hstate, hrest⟩ := nameText_append (by simp) (by simp) hchars
  have hcount := List.append_cancel_right (List.append_cancel_left hrest)
  exact ⟨hstate, countText_injective hcount⟩

theorem arcLine_injective {s s' : State} {t t' : Transition} (h : arcLine s t = arcLine s' t') : s = s' ∧ t = t' := by
  have hchars := congrArg String.toList h
  rw [toList_arcLine, toList_arcLine] at hchars
  obtain ⟨hstate, hrest⟩ := nameText_append (by simp) (by simp) hchars
  obtain ⟨htarget, hrest⟩ := append_unique (isAlphanum_targetText t.target) (isAlphanum_targetText t'.target) (by simp)
    (by simp) (List.append_cancel_left hrest)
  obtain ⟨hlabel, hrest⟩ := append_unique (isAlphanum_labelText t.label) (isAlphanum_labelText t'.label) (by simp)
    (by simp) (List.append_cancel_left hrest)
  have hstyle := List.append_cancel_left hrest
  refine ⟨hstate, ?_⟩
  rw [Transition.mk.injEq]
  exact ⟨labelText_injective hlabel, styleText_injective hstyle, targetText_injective htarget⟩

theorem stateLine_ne_arcLine (s s' : State) (count : Option Nat) (t : Transition) : stateLine s count ≠ arcLine s' t := by
  intro h
  have hchars := congrArg String.toList h
  rw [toList_stateLine, toList_arcLine] at hchars
  obtain ⟨-, hrest⟩ := nameText_append (by simp) (by simp) hchars
  simp at hrest

theorem stateLine_ne_rootLine (s r : State) (count : Option Nat) : stateLine s count ≠ rootLine r := by
  intro h
  have hchars := congrArg String.toList h
  rw [toList_stateLine, toList_rootLine] at hchars
  cases hname : nameText s with
  | nil => exact digits_ne_nil hname
  | cons c cs =>
    have hmem : c ∈ nameText s := by simp [hname]
    obtain rfl : c = 'i' := by
      rw [hname] at hchars
      simp at hchars
      exact hchars.1
    exact absurd (isDigit_of_mem_digits hmem) (by decide)

theorem newline_notMem {text : List Char} (h : ∀ c ∈ text, c.isAlphanum = true) : '\n' ∉ text := fun hmem =>
  absurd (h _ hmem) (by decide)

theorem newline_notMem_rootLine (r : State) : '\n' ∉ (rootLine r).toList := by
  rw [toList_rootLine]
  simp [newline_notMem (isAlphanum_nameText r)]

theorem newline_notMem_stateLine (s : State) (count : Option Nat) : '\n' ∉ (stateLine s count).toList := by
  rw [toList_stateLine]
  simp [newline_notMem (isAlphanum_nameText s), newline_notMem (isAlphanum_countText count)]

theorem newline_notMem_arcLine (s : State) (t : Transition) : '\n' ∉ (arcLine s t).toList := by
  have hstyle : '\n' ∉ styleText t.isFinal := by cases t.isFinal <;> decide
  rw [toList_arcLine]
  simp [newline_notMem (isAlphanum_nameText s), newline_notMem (isAlphanum_targetText t.target),
    newline_notMem (isAlphanum_labelText t.label), hstyle]

/-- What a drawing shows of a state. -/
structure Drawn where
  state : State
  count : Option Nat
  row : List Transition

def Drawn.lines (d : Drawn) : List String := stateLine d.state d.count :: d.row.map (arcLine d.state)

/-- The lines of a drawing. -/
def drawing (root : Option State) (ds : List Drawn) : List String :=
  opening ++ (root.toList.map rootLine ++ (ds.flatMap Drawn.lines ++ [closing]))

theorem head_flatMap_lines {ds : List Drawn} {l : String} (h : l ∈ (ds.flatMap Drawn.lines).head?) :
    ∃ s count, l = stateLine s count := by
  cases ds with
  | nil => cases h
  | cons d ds => exact ⟨d.state, d.count, (Option.some.inj h).symm⟩

theorem flatMap_lines_injective {ds es : List Drawn} (h : ds.flatMap Drawn.lines = es.flatMap Drawn.lines) : ds = es := by
  have hend (ds : List Drawn) : ∀ l ∈ (ds.flatMap Drawn.lines).head?, ¬∃ s t, l = arcLine s t := by
    rintro _ hl ⟨s, t, rfl⟩
    obtain ⟨s', count, heq⟩ := head_flatMap_lines hl
    exact stateLine_ne_arcLine s' s count t heq.symm
  have harcs (s : State) (ts : List Transition) : ∀ l ∈ ts.map (arcLine s), ∃ s t, l = arcLine s t := by
    intro l hl
    obtain ⟨t, -, rfl⟩ := List.mem_map.1 hl
    exact ⟨s, t, rfl⟩
  induction ds generalizing es with
  | nil =>
    cases es with
    | nil => rfl
    | cons e es => cases h
  | cons d ds ih =>
    cases es with
    | nil => cases h
    | cons e es =>
      obtain ⟨hstate, hbehind⟩ := List.cons_eq_cons.1 h
      obtain ⟨hrow, hrest⟩ := append_unique (harcs d.state d.row) (harcs e.state e.row) (hend ds) (hend es) hbehind
      obtain ⟨s, count, ts⟩ := d
      obtain ⟨s', count', ts'⟩ := e
      obtain ⟨rfl, rfl⟩ := stateLine_injective hstate
      obtain rfl := (List.map_inj_right fun t u htu => (arcLine_injective htu).2).1 hrow
      rw [ih hrest]

theorem drawing_injective {r r' : Option State} {ds es : List Drawn} (h : drawing r ds = drawing r' es) :
    r = r' ∧ ds = es := by
  -- The lines of the root end where a state begins, which no line of a root does.
  have hroots (r : Option State) : ∀ l ∈ r.toList.map rootLine, ∃ r, l = rootLine r := by
    intro l hl
    obtain ⟨r, -, rfl⟩ := List.mem_map.1 hl
    exact ⟨r, rfl⟩
  have hend (ds : List Drawn) : ∀ l ∈ (ds.flatMap Drawn.lines).head?, ¬∃ r, l = rootLine r := by
    rintro _ hl ⟨r, rfl⟩
    obtain ⟨s, count, heq⟩ := head_flatMap_lines hl
    exact stateLine_ne_rootLine s r count heq.symm
  rw [drawing, drawing, ← List.append_assoc (r.toList.map rootLine), ← List.append_assoc (r'.toList.map rootLine)] at h
  have hmiddle := List.append_cancel_right (List.append_cancel_left h)
  obtain ⟨hroot, hstates⟩ := append_unique (hroots r) (hroots r') (hend ds) (hend es) hmiddle
  have hhead := congrArg List.head? ((List.map_inj_right fun _ _ => rootLine_injective).1 hroot)
  rw [Option.head?_toList, Option.head?_toList] at hhead
  exact ⟨hhead, flatMap_lines_injective hstates⟩

theorem newline_notMem_drawing (r : Option State) (ds : List Drawn) : ∀ l ∈ drawing r ds, '\n' ∉ l.toList := by
  intro l hl
  rw [drawing, List.mem_append, List.mem_append, List.mem_append, List.mem_map, List.mem_flatMap, List.mem_singleton] at hl
  rcases hl with hl | ⟨r, -, rfl⟩ | ⟨d, -, hl⟩ | rfl
  · have hopening : ∀ l ∈ opening, '\n' ∉ l.toList := by decide
    exact hopening l hl
  · exact newline_notMem_rootLine r
  · rcases List.mem_cons.1 hl with rfl | hl
    · exact newline_notMem_stateLine d.state d.count
    · obtain ⟨t, -, rfl⟩ := List.mem_map.1 hl
      exact newline_notMem_arcLine d.state t
  · decide

/-- Lines as text, each one ended. -/
def unlines (ls : List String) : String := String.join (ls.map (· ++ "\n"))

theorem unlines_injective {ls ms : List String} (hls : ∀ l ∈ ls, '\n' ∉ l.toList) (hms : ∀ m ∈ ms, '\n' ∉ m.toList)
    (h : unlines ls = unlines ms) : ls = ms := by
  have hended (ls : List String) : (unlines ls).toList = (ls.map String.toList).flatMap (· ++ ['\n']) := by
    simp [unlines, String.toList_join, List.flatMap_map]
  have hchars : (ls.map String.toList).flatMap (· ++ ['\n']) = (ms.map String.toList).flatMap (· ++ ['\n']) := by
    rw [← hended, ← hended, h]
  have hlines := flatMap_ended_injective (List.forall_mem_map.2 hls) (List.forall_mem_map.2 hms) hchars
  exact (List.map_inj_right fun _ _ => String.toList_injective).1 hlines

end WordAutomata.Dot
