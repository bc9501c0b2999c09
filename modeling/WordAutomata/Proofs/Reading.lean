import Mathlib.Algebra.Group.Nat.Defs
import WordAutomata.Automaton
import WordAutomata.Header
import WordAutomata.VCode

namespace WordAutomata

theorem ofLittle_little (width n : Nat) : ofLittle (little width n) = n % 256 ^ width := by
  induction width generalizing n with
  | zero => simp [little, ofLittle, Nat.mod_one]
  | succ width ih =>
    have low : (UInt8.ofNat n).toNat = n % 256 := by simp
    rw [little, ofLittle, ih, low, Nat.pow_succ, Nat.mul_comm (256 ^ width) 256, Nat.mod_mul]

theorem ofBig_big (width n : Nat) : ofBig (big width n) = n % 256 ^ width := by
  simp [ofBig, big, ofLittle_little]

section Answers

variable {ε α β : Type}

@[simp] theorem ok_bind (a : α) (g : α → Except ε β) : (Except.ok a >>= g) = g a := rfl

@[simp] theorem error_bind (e : ε) (g : α → Except ε β) : (Except.error e >>= g) = Except.error e := rfl

@[simp] theorem pure_eq_ok (a : α) : (pure a : Except ε α) = Except.ok a := rfl

@[simp] theorem throw_eq_error (e : ε) : (throw e : Except ε α) = Except.error e := rfl

@[simp] theorem map_ok (g : α → β) (a : α) : g <$> (Except.ok a : Except ε α) = Except.ok (g a) := rfl

@[simp] theorem map_error (g : α → β) (e : ε) : g <$> (Except.error e : Except ε α) = Except.error e := rfl

theorem toOption_eq_some {x : Except ε α} {a : α} : x.toOption = some a ↔ x = .ok a := by
  cases x <;> simp [Except.toOption]

theorem bind_eq_ok {x : Except ε α} {g : α → Except ε β} {b : β} :
    (x >>= g) = .ok b ↔ ∃ a, x = .ok a ∧ g a = .ok b := by
  cases x with
  | error e => simp
  | ok a => simp

theorem bind_eq_error {x : Except ε α} {g : α → Except ε β} {e : ε} :
    (x >>= g) = .error e ↔ x = .error e ∨ ∃ a, x = .ok a ∧ g a = .error e := by
  cases x with
  | error f => simp
  | ok a => simp

theorem mapM_eq_map {g : α → Except ε β} {f : α → β} {as : List α} (h : ∀ a ∈ as, g a = .ok (f a)) :
    as.mapM g = .ok (as.map f) := by
  induction as with
  | nil => rfl
  | cons a as ih =>
    have ha := h a (by simp)
    have has := ih fun b hb => h b (by simp [hb])
    simp [List.mapM_cons, ha, has]

theorem exists_of_mapM_eq_ok {g : α → Except ε β} {as : List α} {bs : List β} (h : as.mapM g = .ok bs) {a : α}
    (ha : a ∈ as) : ∃ b, g a = .ok b := by
  induction as generalizing bs with
  | nil => cases ha
  | cons a' as ih =>
    rw [List.mapM_cons] at h
    obtain ⟨b, hb, h⟩ := bind_eq_ok.1 h
    obtain ⟨bs', hbs, -⟩ := bind_eq_ok.1 h
    rcases List.mem_cons.1 ha with rfl | ha
    · exact ⟨b, hb⟩
    · exact ih hbs ha

end Answers

namespace Readout

variable {α β : Type}

theorem all_eq_ok {r : Readout α} {as : List α} : r.all = .ok as ↔ r = ⟨as, none⟩ := by
  obtain ⟨items, fault⟩ := r
  cases fault <;> simp [all]

/-- As long as everything is wanted, a search goes on behind what was found without a fault. -/
@[simp] theorem andThen_all (as : List α) (next : Option Nat → Readout α) :
    (⟨as, none⟩ : Readout α).andThen none next = ⟨as ++ (next none).items, (next none).fault⟩ := by
  simp [andThen, isEnough, append]

theorem done_andThen {wanted : Option Nat} (hwanted : wanted ≠ some 0) (next : Option Nat → Readout α) :
    done.andThen wanted next = next wanted := by
  cases wanted with
  | none => rfl
  | some n =>
    have hpos : n ≠ 0 := fun h => hwanted (congrArg some h)
    simp [andThen, isEnough, done, append, hpos]

/-- Items found without a fault, the first `wanted` of them or all. -/
def upTo (wanted : Option Nat) (as : List α) : Readout α := ⟨wanted.elim as as.take, none⟩

theorem done_eq_upTo (wanted : Option Nat) : (done : Readout α) = upTo wanted [] := by cases wanted <;> simp [done, upTo]

theorem one_eq_upTo {wanted : Option Nat} (hwanted : wanted ≠ some 0) (a : α) : one a = upTo wanted [a] := by
  cases wanted with
  | none => rfl
  | some n =>
    obtain ⟨n, rfl⟩ := Nat.exists_eq_succ_of_ne_zero fun h => hwanted (congrArg some h)
    simp [one, upTo]

/-- Nothing is asked for behind the last item wanted. -/
theorem upTo_andThen {wanted : Option Nat} (hwanted : wanted ≠ some 0) {as bs : List α} {next : Option Nat → Readout α}
    (hnext : ∀ wanted, wanted ≠ some 0 → next wanted = upTo wanted bs) :
    (upTo wanted as).andThen wanted next = upTo wanted (as ++ bs) := by
  cases wanted with
  | none => simp [upTo, hnext none hwanted]
  | some n =>
    by_cases hle : n ≤ as.length
    · have henough : (upTo (some n) as).isEnough (some n) = true := by simp [upTo, isEnough, hle]
      rw [andThen, if_pos henough, upTo, upTo, Option.elim_some, Option.elim_some, List.take_append_of_le_length hle]
    · have hall : upTo (some n) as = ⟨as, none⟩ := by
        rw [upTo, Option.elim_some, List.take_of_length_le (by omega)]
      have hrest : some (n - as.length) ≠ some 0 := by
        intro h
        have := Option.some.inj h
        omega
      rw [hall]
      simp [andThen, isEnough, hle, append, upTo, hnext _ hrest, List.take_append, List.take_of_length_le (Nat.le_of_not_le hle)]

/-- A search that finds at most one item at a time stops right behind the last one wanted. -/
theorem andThen_eq_upTo {r : Readout α} (hr : r.items.length ≤ 1) {next : Option Nat → Readout α} {as : List α}
    (h : r.andThen none next = ⟨as, none⟩)
    (hnext : ∀ bs, next none = ⟨bs, none⟩ → ∀ wanted, wanted ≠ some 0 → next wanted = upTo wanted bs)
    {wanted : Option Nat} (hwanted : wanted ≠ some 0) : r.andThen wanted next = upTo wanted as := by
  obtain ⟨items, fault⟩ := r
  cases fault with
  | some f => simp [andThen, isEnough] at h
  | none =>
    rw [andThen_all, Readout.mk.injEq] at h
    obtain ⟨rfl, hfault⟩ := h
    have hrest : next none = ⟨(next none).items, none⟩ := by rw [← hfault]
    have hitems : (⟨items, none⟩ : Readout α) = upTo wanted items := by
      cases wanted with
      | none => rfl
      | some n =>
        have hpos : n ≠ 0 := fun h => hwanted (congrArg some h)
        rw [upTo, Option.elim_some, List.take_of_length_le (by simp only at hr; omega)]
    rw [hitems, upTo_andThen hwanted (hnext _ hrest)]

end Readout

namespace Bytes

/-- `bs` stands in the buffer at a position. -/
def Holds (data : Bytes) (i : Nat) (bs : List UInt8) : Prop := bs <+: data.toList.drop i

theorem holds_of_append {data : Bytes} {before bs after : List UInt8}
    (h : data.toList = before ++ (bs ++ after)) : data.Holds before.length bs := by
  rw [Holds, h, List.drop_left]
  exact List.prefix_append bs after

theorem holds_append {data : Bytes} {i : Nat} {bs cs : List UInt8} :
    data.Holds i (bs ++ cs) ↔ data.Holds i bs ∧ data.Holds (i + bs.length) cs := by
  constructor
  · intro ⟨rest, h⟩
    refine ⟨⟨cs ++ rest, by rw [← h, List.append_assoc]⟩, ⟨rest, ?_⟩⟩
    rw [← List.drop_drop, ← h, List.append_assoc, List.drop_left]
  · intro ⟨⟨rest, h⟩, hc⟩
    rw [Holds, ← List.drop_drop, ← h, List.drop_left] at hc
    obtain ⟨tail, rfl⟩ := hc
    exact ⟨tail, by rw [← h, List.append_assoc]⟩

theorem holds_cons {data : Bytes} {i : Nat} {b : UInt8} {bs : List UInt8} :
    data.Holds i (b :: bs) ↔ data.Holds i [b] ∧ data.Holds (i + 1) bs := by
  rw [← List.singleton_append, holds_append]
  rfl

theorem Holds.le_size {data : Bytes} {i : Nat} {bs : List UInt8} (h : data.Holds i bs) (hne : bs ≠ []) :
    i + bs.length ≤ data.size := by
  have hlen := h.length_le
  have hpos : 0 < bs.length := List.length_pos_iff.2 hne
  have hsize : data.toList.length = data.size := Array.length_toList
  rw [List.length_drop] at hlen
  omega

theorem Holds.getElem? {data : Bytes} {i : Nat} {b : UInt8} {bs : List UInt8} (h : data.Holds i (b :: bs)) :
    data[i]? = some b := by
  obtain ⟨rest, h⟩ := h
  rw [← Array.getElem?_toList, ← Nat.add_zero i, ← List.getElem?_drop, ← h]
  rfl

theorem byte_eq {data : Bytes} {i : Nat} {b : UInt8} {bs : List UInt8} (h : data.Holds i (b :: bs)) :
    data.byte i = .ok b := by
  obtain ⟨hi, hb⟩ := Array.getElem?_eq_some_iff.1 h.getElem?
  rw [byte, dif_pos hi, hb]

theorem span_eq {data : Bytes} {i : Nat} {bs : List UInt8} (h : data.Holds i bs) (hne : bs ≠ []) :
    data.span i bs.length = .ok bs := by
  rw [span, if_pos (h.le_size hne)]
  obtain ⟨rest, h⟩ := h
  rw [Array.toList_extract, List.extract_eq_take_drop, ← h, Nat.add_sub_cancel_left, List.take_left]

theorem bigAt_eq {data : Bytes} {i width n : Nat} (h : data.Holds i (big width n)) (hw : 0 < width) :
    data.bigAt i width = .ok (n % 256 ^ width) := by
  have hne : big width n ≠ [] := by
    rw [← List.length_pos_iff, length_big]
    exact hw
  have hs := span_eq h hne
  rw [length_big] at hs
  simp [bigAt, hs, ofBig_big]

theorem littleAt_eq {data : Bytes} {i width n : Nat} (h : data.Holds i (little width n)) (hw : 1 ≤ width ∧ width ≤ 8) :
    data.littleAt i width = .ok (n % 256 ^ width) := by
  have hne : little width n ≠ [] := by
    rw [← List.length_pos_iff, length_little]
    exact hw.1
  have hs := span_eq h hne
  rw [length_little] at hs
  simp [littleAt, hs, hw, ofLittle_little]

end Bytes

theorem Header.parse_toBytes (version : UInt8) (rest : List UInt8) :
    Header.parse (Header.toBytes ⟨version⟩ ++ rest).toArray = .ok ⟨version⟩ := by
  simp [Header.parse, Header.toBytes, magic]

end WordAutomata
