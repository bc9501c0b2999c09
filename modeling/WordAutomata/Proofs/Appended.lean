import WordAutomata.Proofs.Checks

namespace WordAutomata

section

variable {ε α β : Type} {short : ε → Prop}

/-- An answer is kept, unless it was that what is asked for lies behind the end. -/
def Kept (short : ε → Prop) (x y : Except ε α) : Prop := (∃ e, short e ∧ x = .error e) ∨ y = x

namespace Kept

theorem refl (x : Except ε α) : Kept short x x := .inr rfl

theorem of_short {e : ε} (h : short e) (y : Except ε α) : Kept short (.error e) y := .inl ⟨e, h, rfl⟩

theorem bind {x y : Except ε α} {g g' : α → Except ε β} (h : Kept short x y)
    (hg : ∀ a, x = .ok a → Kept short (g a) (g' a)) : Kept short (x >>= g) (y >>= g') := by
  rcases h with ⟨e, he, rfl⟩ | rfl
  · exact of_short he _
  · cases y with
    | error e => exact refl _
    | ok a => exact hg a rfl

theorem map {x y : Except ε α} (h : Kept short x y) (f : α → β) : Kept short (f <$> x) (f <$> y) := by
  rcases h with ⟨e, he, rfl⟩ | rfl
  · exact of_short he _
  · exact refl _

theorem ite (p : Prop) [Decidable p] {x x' y y' : Except ε α} (h : Kept short x y) (h' : Kept short x' y') :
    Kept short (if p then x else x') (if p then y else y') := by
  split
  · exact h
  · exact h'

theorem eq_ok {x y : Except ε α} (h : Kept short x y) {a : α} (ha : x = .ok a) : y = .ok a := by
  rcases h with ⟨e, -, rfl⟩ | rfl
  · cases ha
  · exact ha

end Kept

end

/-- A read behind the end of the buffer. -/
def Fault.IsShort (f : Fault) : Prop := ∃ position, f = .outsideBuffer position

/-- A stream that ends too early. -/
def StreamError.IsShort (e : StreamError) : Prop := e = .truncated

theorem Kept.truncated {α : Type} (y : Except StreamError α) : Kept StreamError.IsShort (.error .truncated) y :=
  .inl ⟨.truncated, rfl, rfl⟩

namespace Bytes

variable (data more : Bytes)

theorem getElem?_append {i : Nat} {b : UInt8} (h : data[i]? = some b) : (data ++ more)[i]? = some b := by
  obtain ⟨hi, hb⟩ := Array.getElem?_eq_some_iff.1 h
  rw [Array.getElem?_append_left hi, h]

theorem extract_append_left {i j : Nat} (h : j ≤ data.size) : (data ++ more).extract i j = data.extract i j := by
  rw [Array.extract_append, Nat.sub_eq_zero_of_le h]
  simp

theorem extract_append_end {i : Nat} (h : i ≤ data.size) :
    (data ++ more).extract i (data ++ more).size = data.extract i data.size ++ more := by
  have hlong : data.extract i (data.size + more.size) = data.extract i data.size := by
    apply Array.ext
    · rw [Array.size_extract, Array.size_extract]
      omega
    · intro j _ _
      rw [Array.getElem_extract, Array.getElem_extract]
  rw [Array.extract_append, Nat.sub_eq_zero_of_le h, Array.size_append, Nat.add_sub_cancel_left, hlong, Array.extract_size]

theorem byte_kept (i : Nat) : Kept Fault.IsShort (data.byte i) ((data ++ more).byte i) := by
  rw [byte, byte]
  by_cases hi : i < data.size
  · rw [dif_pos hi, dif_pos (by rw [Array.size_append]; omega), Array.getElem_append_left hi]
    exact .refl _
  · rw [dif_neg hi]
    exact .of_short ⟨i, rfl⟩ _

theorem span_kept (i n : Nat) : Kept Fault.IsShort (data.span i n) ((data ++ more).span i n) := by
  rw [span, span]
  by_cases hn : i + n ≤ data.size
  · rw [if_pos hn, if_pos (by rw [Array.size_append]; omega), data.extract_append_left more hn]
    exact .refl _
  · rw [if_neg hn]
    exact .of_short ⟨i + n, rfl⟩ _

theorem littleAt_kept (i width : Nat) : Kept Fault.IsShort (data.littleAt i width) ((data ++ more).littleAt i width) :=
  (data.span_kept more i width).bind fun _ _ => .refl _

end Bytes

namespace VCode

variable (data more : Bytes)

theorem codeAt_kept (i : Nat) : Kept Fault.IsShort (codeAt data i) (codeAt (data ++ more) i) := by
  have hsize : data.size ≤ (data ++ more).size := by
    rw [Array.size_append]
    omega
  fun_induction codeAt data i with
  | case1 i hi hcontinues ih =>
    have hmore : codeAt (data ++ more) i = (do return data[i] :: (← codeAt (data ++ more) (i + 1))) := by
      rw [codeAt, dif_pos (by omega), Array.getElem_append_left hi, if_pos hcontinues]
    rw [hmore]
    exact ih.bind fun _ _ => .refl _
  | case2 i hi hlast =>
    rw [codeAt, dif_pos (by omega), Array.getElem_append_left hi, if_neg hlast]
    exact .refl _
  | case3 i hi => exact .of_short ⟨i, rfl⟩ _

theorem skip_kept (i : Nat) : Kept Fault.IsShort (skip data i) (skip (data ++ more) i) :=
  (codeAt_kept data more i).bind fun _ _ => .refl _

theorem valueAt_kept (i : Nat) : Kept Fault.IsShort (valueAt data i) (valueAt (data ++ more) i) :=
  (codeAt_kept data more i).bind fun _ _ => .refl _

theorem split_append {window bs : List UInt8} (h : split window = some bs) (rest : List UInt8) :
    split (window ++ rest) = some bs := by
  fun_induction split window generalizing bs with
  | case1 => cases h
  | case2 b window hcontinues ih =>
    obtain ⟨cs, hcs, rfl⟩ := Option.map_eq_some_iff.1 h
    rw [List.cons_append, split, if_pos hcontinues, ih hcs, Option.map_some]
  | case3 b window hlast => rw [List.cons_append, split, if_neg hlast, h]

theorem decode_kept (i : Nat) : Kept StreamError.IsShort (decode data i) (decode (data ++ more) i) := by
  by_cases hle : i + maxLength ≤ data.size
  · rw [decode, decode, data.extract_append_left more hle]
    exact .refl _
  have hwindow : ((data ++ more).extract i (i + maxLength)).toList = (data.extract i (i + maxLength)).toList ++
      (more.extract (i - data.size) (i + maxLength - data.size)).toList := by
    rw [Array.extract_append, Array.toList_append]
  have hlength : (data.extract i (i + maxLength)).toList.length < maxLength := by
    rw [Array.length_toList, Array.size_extract]
    rw [maxLength] at hle ⊢
    omega
  rw [decode, decode, hwindow]
  cases hsplit : split (data.extract i (i + maxLength)).toList with
  | some bs =>
    rw [split_append hsplit]
    exact .refl _
  | none =>
    simp only [if_pos hlength]
    exact .truncated _

end VCode

/-- An automaton answers every question as another one does that has more to read, or tells that it has not enough. -/
structure Automaton.KeptBy (A B : Automaton) : Prop where
  flags_eq : B.flags = A.flags
  epsilon_eq : B.epsilon = A.epsilon
  firstArc : ∀ s, Kept Fault.IsShort (A.firstArc s) (B.firstArc s)
  nextArc : ∀ a, Kept Fault.IsShort (A.nextArc a) (B.nextArc a)
  label : ∀ a, Kept Fault.IsShort (A.label a) (B.label a)
  isFinal : ∀ a, Kept Fault.IsShort (A.isFinal a) (B.isFinal a)
  target : ∀ a, Kept Fault.IsShort (A.target a) (B.target a)
  storedCount : ∀ s, Kept Fault.IsShort (A.storedCount s) (B.storedCount s)
  root : Kept Fault.IsShort A.root B.root

namespace Uniform

/-- The same stream with more behind its body. -/
def extend (u : Uniform) (more : Bytes) : Uniform := { u with body := u.body ++ more }

variable (u : Uniform) (more : Bytes)

theorem marks_kept (arc : Nat) : Kept Fault.IsShort (u.marks arc) ((u.extend more).marks arc) :=
  (u.body.byte_kept more (arc + 1)).bind fun _ _ => .refl _

theorem behind_kept (arc : Nat) : Kept Fault.IsShort (u.behind arc) ((u.extend more).behind arc) :=
  (u.marks_kept more arc).bind fun _ _ => .refl _

theorem nextArc_kept (a : Arc) : Kept Fault.IsShort (u.nextArc a) ((u.extend more).nextArc a) := by
  refine (u.marks_kept more a.offset.toNat).bind fun m _ => .ite _ (.refl _) ?_
  exact (u.behind_kept more a.offset.toNat).bind fun _ _ => .refl _

theorem target_kept (a : Arc) : Kept Fault.IsShort (u.target a) ((u.extend more).target a) := by
  rw [target_step, target_step]
  refine (u.marks_kept more a.offset.toNat).bind fun m _ => ?_
  refine Kept.bind (.ite _ ?_ ?_) fun _ _ => .refl _
  · exact u.behind_kept more a.offset.toNat
  · exact (u.body.littleAt_kept more (a.offset.toNat + 1) u.addressWidth).map (· / 8)

theorem storedCount_kept (s : State) : Kept Fault.IsShort (u.storedCount s) ((u.extend more).storedCount s) := by
  have hcount := (u.body.littleAt_kept more s.offset.toNat u.countWidth).map some
  exact .ite (u.countWidth = 0) (.refl _) hcount

theorem automaton_kept : u.automaton.KeptBy (u.extend more).automaton where
  flags_eq := rfl
  epsilon_eq := rfl
  firstArc _ := .refl _
  nextArc := u.nextArc_kept more
  label a := u.body.byte_kept more a.offset.toNat
  isFinal a := (u.marks_kept more a.offset.toNat).bind fun _ _ => .refl _
  target := u.target_kept more
  storedCount := u.storedCount_kept more
  root := u.target_kept more _

end Uniform

namespace Compact

/-- The same stream with more behind its body. -/
def extend (c : Compact) (more : Bytes) : Compact := { c with body := c.body ++ more }

variable (c : Compact) (more : Bytes)

theorem marks_kept (arc : Nat) : Kept Fault.IsShort (c.marks arc) ((c.extend more).marks arc) :=
  (c.body.byte_kept more arc).bind fun _ _ => .refl _

theorem behind_kept (arc : Nat) : Kept Fault.IsShort (c.behind arc) ((c.extend more).behind arc) :=
  (c.marks_kept more arc).bind fun _ _ => .ite _ (.refl _) (VCode.skip_kept c.body more _)

theorem behindState_kept (arc : Nat) : Kept Fault.IsShort (c.behindState arc) ((c.extend more).behindState arc) := by
  induction hn : c.body.size - arc using Nat.strongRecOn generalizing arc with
  | ind n ih =>
    rw [behindState_step, behindState_step]
    refine (c.marks_kept more arc).bind fun m _ => .ite _ (c.behind_kept more arc) ?_
    refine (c.behind_kept more arc).bind fun next hnext => ?_
    have hgt := behind_gt hnext
    have hlt := lt_size_of_behind hnext
    exact ih (c.body.size - next) (by omega) next rfl

theorem firstArc_kept (s : State) : Kept Fault.IsShort (c.firstArc s) ((c.extend more).firstArc s) := by
  have hskip := (VCode.skip_kept c.body more s.offset.toNat).map fun position => Arc.mk (UInt32.ofNat position)
  exact .ite (c.flags.numbers = true) hskip (.refl _)

theorem nextArc_kept (a : Arc) : Kept Fault.IsShort (c.nextArc a) ((c.extend more).nextArc a) := by
  refine (c.marks_kept more a.offset.toNat).bind fun m _ => .ite _ (.refl _) ?_
  exact (c.behind_kept more a.offset.toNat).bind fun _ _ => .refl _

theorem label_kept (a : Arc) : Kept Fault.IsShort (c.label a) ((c.extend more).label a) :=
  (c.marks_kept more a.offset.toNat).bind fun m _ =>
    .ite (labelIndex m = 0) (c.body.byte_kept more (a.offset.toNat + 1)) (.refl _)

theorem target_kept (a : Arc) : Kept Fault.IsShort (c.target a) ((c.extend more).target a) := by
  rw [target_step, target_step]
  refine (c.marks_kept more a.offset.toNat).bind fun m _ => ?_
  refine Kept.bind (.ite _ ?_ ?_) fun _ _ => .refl _
  · exact (c.behindState_kept more a.offset.toNat).map UInt32.ofNat
  · exact VCode.valueAt_kept c.body more _

theorem storedCount_kept (s : State) : Kept Fault.IsShort (c.storedCount s) ((c.extend more).storedCount s) := by
  have hcount := (VCode.valueAt_kept c.body more s.offset.toNat).map fun n => some n.toNat
  exact .ite (c.flags.numbers = true) hcount (.refl _)

theorem automaton_kept : c.automaton.KeptBy (c.extend more).automaton where
  flags_eq := rfl
  epsilon_eq := rfl
  firstArc := c.firstArc_kept more
  nextArc := c.nextArc_kept more
  label := c.label_kept more
  isFinal a := (c.marks_kept more a.offset.toNat).bind fun _ _ => .refl _
  target := c.target_kept more
  storedCount := c.storedCount_kept more
  root := (c.firstArc_kept more ⟨0⟩).bind fun a _ => c.target_kept more a

end Compact

theorem Header.parse_kept (data more : Bytes) : Kept StreamError.IsShort (parse data) (parse (data ++ more)) := by
  have hpresent : ((data ++ more).extract 0 magic.length).toList =
      (data.extract 0 magic.length).toList ++ (more.extract (0 - data.size) (magic.length - data.size)).toList := by
    rw [Array.extract_append, Array.toList_append]
  rw [parse, parse]
  by_cases hmagic : (data.extract 0 magic.length).toList ≠ magic.take (data.extract 0 magic.length).toList.length
  · -- Bytes that are not how the magic begins do not become so by what follows.
    have hmore : ((data ++ more).extract 0 magic.length).toList ≠
        magic.take ((data ++ more).extract 0 magic.length).toList.length := by
      intro heq
      apply hmagic
      have hprefix : (data.extract 0 magic.length).toList <+: magic := by
        have htaken : ((data ++ more).extract 0 magic.length).toList <+: magic := List.prefix_iff_eq_take.2 heq
        rw [hpresent] at htaken
        exact (List.prefix_append _ _).trans htaken
      exact List.prefix_iff_eq_take.1 hprefix
    simp only [if_pos hmagic, if_pos hmore]
    exact .refl _
  · simp only [if_neg hmagic]
    cases hversion : data[magic.length]? with
    | none => exact .truncated _
    | some version =>
      have hsize := (Array.getElem?_eq_some_iff.1 hversion).1
      rw [data.extract_append_left more (Nat.le_of_lt hsize), if_neg hmagic, data.getElem?_append more hversion]
      exact .refl _

namespace Uniform

theorem behind_extend {u : Uniform} {more : Bytes} {arc position : Nat} (h : u.behind arc = .ok position) :
    (u.extend more).behind arc = .ok position := (u.behind_kept more arc).eq_ok h

theorem check_kept (u : Uniform) (more : Bytes) :
    Kept StreamError.IsShort ((·.extend more) <$> u.check) (u.extend more).check := by
  rw [check, check]
  by_cases haddress : u.addressWidth = 0 ∨ 8 < u.addressWidth
  · rw [if_pos haddress, if_pos (show (u.extend more).addressWidth = 0 ∨ 8 < (u.extend more).addressWidth from haddress)]
    exact .refl _
  rw [if_neg haddress, if_neg (show ¬((u.extend more).addressWidth = 0 ∨ 8 < (u.extend more).addressWidth) from haddress)]
  by_cases hcount : 4 < u.countWidth
  · rw [if_pos hcount, if_pos (show 4 < (u.extend more).countWidth from hcount)]
    exact .refl _
  rw [if_neg hcount, if_neg (show ¬4 < (u.extend more).countWidth from hcount)]
  cases hcomplete : u.isComplete with
  | false => exact .truncated _
  | true =>
    obtain ⟨position, hbehind, hle⟩ := (isComplete_iff u).1 hcomplete
    have hsize : (u.extend more).body.size = u.body.size + more.size := Array.size_append
    have hmore := (isComplete_iff (u.extend more)).2 ⟨position, behind_extend hbehind, by omega⟩
    rw [hmore]
    exact .refl _

theorem opened_append {data : Bytes} (more : Bytes) (h : bodyOffset ≤ data.size)
    (h' : bodyOffset ≤ (data ++ more).size) : opened (data ++ more) h' = (opened data h).extend more := by
  have hhead : Header.size + 3 ≤ data.size := h
  have hbyte (i : Nat) (hi : i < data.size) (hi' : i < (data ++ more).size) : (data ++ more)[i] = data[i] :=
    Array.getElem_append_left hi
  simp only [opened, extend, data.extract_append_end more h]
  rw [hbyte Header.size (by omega), hbyte (Header.size + 1) (by omega), hbyte (Header.size + 2) (by omega)]

theorem ofBytes_kept (data more : Bytes) :
    Kept StreamError.IsShort ((·.extend more) <$> ofBytes data) (ofBytes (data ++ more)) := by
  rw [ofBytes_step, ofBytes_step, map_bind]
  refine (Header.parse_kept data more).bind fun header _ => ?_
  by_cases hversion : header.version ≠ version
  · rw [if_pos hversion, if_pos hversion]
    exact .refl _
  rw [if_neg hversion, if_neg hversion]
  by_cases hsize : bodyOffset ≤ data.size
  · have hmore : bodyOffset ≤ (data ++ more).size := by
      rw [Array.size_append]
      omega
    rw [dif_pos hsize, dif_pos hmore, opened_append more hsize hmore]
    exact (opened data hsize).check_kept more
  · rw [dif_neg hsize]
    exact .truncated _

end Uniform

namespace Compact

theorem entries_append {data : Bytes} (more : Bytes) (h : tableOffset ≤ data.size)
    (h' : tableOffset ≤ (data ++ more).size) : entries (data ++ more) h' = entries data h :=
  congrArg UInt8.toNat (Array.getElem_append_left (Nat.lt_of_lt_of_le (by decide) h))

theorem opened_append {data : Bytes} (more : Bytes) (h : tableOffset ≤ data.size)
    (h' : tableOffset ≤ (data ++ more).size) (htable : tableOffset + entries data h ≤ data.size) :
    opened (data ++ more) h' = (opened data h).extend more := by
  have hhead : Header.size + 3 ≤ data.size := h
  have hbyte (i : Nat) (hi : i < data.size) (hi' : i < (data ++ more).size) : (data ++ more)[i] = data[i] :=
    Array.getElem_append_left hi
  simp only [opened, extend, entries_append more h h', data.extract_append_left more htable,
    data.extract_append_end more htable]
  rw [hbyte Header.size (by omega), hbyte (Header.size + 1) (by omega)]

theorem epsilonArc_kept (c : Compact) (more : Bytes) :
    Kept StreamError.IsShort c.epsilonArc (c.extend more).epsilonArc :=
  .ite (c.flags.numbers = true) ((VCode.decode_kept c.body more 0).map Prod.snd) (.refl _)

theorem checkEpsilon_kept (c : Compact) (more : Bytes) :
    Kept StreamError.IsShort c.checkEpsilon (c.extend more).checkEpsilon := by
  rw [checkEpsilon_step, checkEpsilon_step]
  refine (c.epsilonArc_kept more).bind fun arc _ => ?_
  cases hmarks : c.body[arc]? with
  | none => exact .truncated _
  | some m =>
    have hmore : (c.extend more).body[arc]? = some m := c.body.getElem?_append more hmarks
    have haddress := (VCode.decode_kept c.body more (arc + addressOffset m.toNat)).map fun _ => ()
    rw [hmore]
    exact .ite (m.toNat.testBit 7 = true) (.refl _) haddress

theorem ofBytes_kept (data more : Bytes) :
    Kept StreamError.IsShort ((·.extend more) <$> ofBytes data) (ofBytes (data ++ more)) := by
  rw [ofBytes_step, ofBytes_step, map_bind]
  refine (Header.parse_kept data more).bind fun header _ => ?_
  by_cases hversion : header.version ≠ version
  · rw [if_pos hversion, if_pos hversion]
    exact .refl _
  rw [if_neg hversion, if_neg hversion]
  by_cases hsize : tableOffset ≤ data.size
  · have hmore : tableOffset ≤ (data ++ more).size := by
      rw [Array.size_append]
      omega
    rw [dif_pos hsize, dif_pos hmore, entries_append more hsize hmore]
    by_cases htable : maxLabels < entries data hsize
    · rw [if_pos htable, if_pos htable]
      exact .refl _
    rw [if_neg htable, if_neg htable]
    by_cases hbody : data.size ≤ tableOffset + entries data hsize
    · rw [if_pos hbody]
      exact .truncated _
    have hbody' : ¬(data ++ more).size ≤ tableOffset + entries data hsize := by
      rw [Array.size_append]
      omega
    rw [if_neg hbody, if_neg hbody', opened_append more hsize hmore (by omega), map_bind]
    exact ((opened data hsize).checkEpsilon_kept more).bind fun _ _ => .refl _
  · rw [dif_neg hsize]
    exact .truncated _

end Compact

namespace Stream

/-- The same stream with more behind its body. Everything before the body stays the same. -/
def extend : Stream → Bytes → Stream
  | uniform u, more => uniform (u.extend more)
  | compact c, more => compact (c.extend more)

theorem automaton_kept (x : Stream) (more : Bytes) : x.automaton.KeptBy (x.extend more).automaton := by
  cases x with
  | uniform u => exact u.automaton_kept more
  | compact c => exact c.automaton_kept more

theorem ofBytes_kept (data more : Bytes) :
    Kept StreamError.IsShort ((·.extend more) <$> ofBytes data) (ofBytes (data ++ more)) := by
  have huniform : Kept StreamError.IsShort ((·.extend more) <$> uniform <$> Uniform.ofBytes data)
      (uniform <$> Uniform.ofBytes (data ++ more)) := by
    have hmap := (Uniform.ofBytes_kept data more).map uniform
    rw [Functor.map_map] at hmap ⊢
    exact hmap
  have hcompact : Kept StreamError.IsShort ((·.extend more) <$> compact <$> Compact.ofBytes data)
      (compact <$> Compact.ofBytes (data ++ more)) := by
    have hmap := (Compact.ofBytes_kept data more).map compact
    rw [Functor.map_map] at hmap ⊢
    exact hmap
  rw [ofBytes, ofBytes, map_bind]
  refine (Header.parse_kept data more).bind fun header _ => ?_
  by_cases hfirst : header.version = Uniform.version
  · rw [if_pos hfirst, if_pos hfirst]
    exact huniform
  rw [if_neg hfirst, if_neg hfirst]
  by_cases hsecond : header.version = Compact.version
  · rw [if_pos hsecond, if_pos hsecond]
    exact hcompact
  rw [if_neg hsecond, if_neg hsecond]
  exact .refl _

/-- More bytes behind a stream change nothing: an error stays, unless it is that the stream ends too early, and what has been
accepted stays accepted, with the same head, and answers as before whatever it could answer. So a stream that was cut
short is refused as such, or whatever it answers is what the whole stream answers. -/
theorem ofBytes_append (data more : Bytes) :
    (∀ e, ofBytes data = .error e → e ≠ .truncated → ofBytes (data ++ more) = .error e) ∧
    (∀ x, ofBytes data = .ok x →
      ofBytes (data ++ more) = .ok (x.extend more) ∧ x.automaton.KeptBy (x.extend more).automaton) ∧
    ∀ y, ofBytes (data ++ more) = .ok y → ofBytes data = .error .truncated ∨
      ∃ x, ofBytes data = .ok x ∧ y = x.extend more ∧ x.automaton.KeptBy y.automaton := by
  have hkept := ofBytes_kept data more
  refine ⟨?_, ?_, ?_⟩
  · intro e he hne
    rw [he, map_error] at hkept
    rcases hkept with ⟨e', rfl, hshort⟩ | hsame
    · exact absurd (Except.error.inj hshort) hne
    · exact hsame
  · intro x hx
    rw [hx, map_ok] at hkept
    exact ⟨hkept.eq_ok rfl, x.automaton_kept more⟩
  · intro y hy
    cases hx : ofBytes data with
    | ok x =>
      rw [hx, map_ok] at hkept
      obtain rfl := Except.ok.inj (hy.symm.trans (hkept.eq_ok rfl))
      exact .inr ⟨x, rfl, rfl, x.automaton_kept more⟩
    | error e =>
      rw [hx, map_error] at hkept
      rcases hkept with ⟨e', rfl, hshort⟩ | hsame
      · exact .inl hshort
      · cases hy.symm.trans hsame

/-- The root is known before its arc is there, and a wrong beginning stays wrong. -/
theorem ofBytes_append_arc : ∃ x, ofBytes #[0x5c, 0x66, 0x73, 0x61, 5, 0x5f, 0x2b, 1, 0, 0, 0x5e, 6] = .ok x ∧
    x.automaton.label ⟨4⟩ = .error (.outsideBuffer 4) ∧ x.automaton.root = .ok (some ⟨4⟩) ∧
    ofBytes (#[0x5c, 0x66, 0x73, 0x61, 5, 0x5f, 0x2b, 1, 0, 0, 0x5e, 6] ++ #[0x61, 3]) = .ok (x.extend #[0x61, 3]) ∧
    (x.extend #[0x61, 3]).automaton.root = .ok (some ⟨4⟩) ∧
    ofBytes (#[0x5c, 0x67] ++ #[0x61, 3]) = .error .malformedHeader := by
  have hrun : (do
      let x ← (ofBytes #[0x5c, 0x66, 0x73, 0x61, 5, 0x5f, 0x2b, 1, 0, 0, 0x5e, 6]).toOption
      return (x.automaton.label ⟨4⟩, x.automaton.root)) = some (.error (.outsideBuffer 4), .ok (some ⟨4⟩)) := by cbv
  have hwrong : ofBytes #[0x5c, 0x67] = .error .malformedHeader := by cbv
  simp only [Option.bind_eq_bind, Option.bind_eq_some_iff, toOption_eq_some, Option.pure_def, Option.some.injEq,
    Prod.mk.injEq] at hrun
  obtain ⟨x, hx, hlabel, hroot⟩ := hrun
  obtain ⟨hmore, hkept⟩ := (ofBytes_append _ #[0x61, 3]).2.1 x hx
  have hstays := (ofBytes_append _ #[0x61, 3]).1 _ hwrong (by decide)
  exact ⟨x, hx, hlabel, hroot, hmore, hkept.root.eq_ok hroot, hstays⟩

end Stream

end WordAutomata
