import Mathlib.Data.Nat.Bitwise
import WordAutomata.Proofs.Codes
import WordAutomata.Walk

namespace WordAutomata.VCode

/-- Checked reading, so many bytes of the code being behind it. -/
def gather (data : Bytes) (position length : Nat) (sum : UInt64) : Except StreamError (UInt64 × Nat) :=
  if h : position + length < data.size then
    let b := data[position + length]
    let sum := sum ||| (b &&& 0x7f).toUInt64 <<< UInt64.ofNat (7 * length)
    if b &&& 0x80 = 0 then .ok (sum, length + 1)
    else if length + 1 = maxLength then .error (.malformed (.longCode position))
    else gather data position (length + 1) sum
  else .error .truncated
termination_by data.size - (position + length)

/-- Checked reading from the first byte on. -/
def decodeWord (data : Bytes) (position : Nat) : Except StreamError (UInt32 × Nat) := do
  let (sum, length) ← gather data position 0 0
  if sum ≤ 0xffffffff then return (sum.toUInt32, length) else throw (.malformed (.largeCode position))

/-- What unchecked reading has done: the bytes it asked for, and by how many bits it has shifted. -/
structure Use where
  reads : List Nat
  shifts : List Nat

/-- A byte that is asked for, in the buffer or not. -/
def ask (data : Bytes) (position : Nat) : Visit Use { _b : UInt8 // position < data.size } := do
  modify fun u => { u with reads := u.reads ++ [position] }
  if h : position < data.size then return ⟨data[position], h⟩ else throw (.outsideBuffer position)

/-- A group in its place. A word of 32 bits cannot be shifted by as many. -/
def shifted (b : UInt8) (bits : Nat) : Visit Use UInt32 := do
  modify fun u => { u with shifts := u.shifts ++ [bits] }
  if bits < 32 then return (b &&& 0x7f).toUInt32 <<< UInt32.ofNat bits else throw .overflow

/-- Unchecked reading, a byte being the last one read so far. -/
def readOn (data : Bytes) (position : Nat) (b : UInt8) (bits : Nat) (sum : UInt32) : Visit Use UInt32 :=
  if b &&& 0x80 = 0 then return sum
  else do
    let ⟨next, _⟩ ← ask data (position + 1)
    readOn data (position + 1) next (bits + 7) (sum ||| (← shifted next bits))
termination_by data.size - position

/-- Unchecked reading from the first byte on, which stays where it is. -/
def readWord (data : Bytes) (position : Nat) : Visit Use UInt32 := do
  let b := (← ask data position).1
  readOn data position b 7 (b &&& 0x7f).toUInt32

/-- The position behind a code, looked for byte by byte. -/
def skipOn (data : Bytes) (position : Nat) : Visit Use Nat := do
  let ⟨b, _⟩ ← ask data position
  if b &&& 0x80 = 0 then return position + 1 else skipOn data (position + 1)
termination_by data.size - position

theorem and_high (b : UInt8) : b &&& 0x80 = 0 ↔ b.toNat < 128 := by
  have hlt := b.toNat_lt
  have hbit : (b &&& 0x80).toNat = (b.toNat.testBit 7).toNat * 2 ^ 7 := by
    rw [UInt8.toNat_and]
    exact Nat.and_two_pow b.toNat 7
  rw [← UInt8.toNat_inj, hbit, Nat.testBit_eq_decide_div_mod_eq]
  by_cases h : b.toNat < 128
  · simp [h, show b.toNat / 128 = 0 by omega]
  · simp [h, show b.toNat / 128 = 1 by omega]

theorem toNat_low (b : UInt8) : (b &&& 0x7f).toNat = b.toNat % 128 := by
  rw [UInt8.toNat_and]
  exact Nat.and_two_pow_sub_one_eq_mod b.toNat 7

/-- A group that is put above a smaller sum adds its value, but for what is shifted out. -/
theorem or_shiftLeft_mod {sum bits : Nat} (h : sum < 2 ^ bits) (group width : Nat) :
    sum % 2 ^ width ||| group <<< bits % 2 ^ width = (sum + 2 ^ bits * group) % 2 ^ width := by
  rw [← Nat.or_mod_two_pow, Nat.shiftLeft_eq, Nat.or_comm, Nat.mul_comm, ← Nat.two_pow_add_eq_or_of_lt h, Nat.add_comm]

section

variable {sum bits : Nat} (h : sum < 2 ^ bits) (b : UInt8)

include h

theorem or_group64 (hbits : bits < 64) : UInt64.ofNat sum ||| (b &&& 0x7f).toUInt64 <<< UInt64.ofNat bits =
    UInt64.ofNat (sum + 2 ^ bits * (b.toNat % 128)) := by
  have hplace : (UInt64.ofNat bits).toNat % 64 = bits := by
    rw [UInt64.toNat_ofNat']
    omega
  rw [← UInt64.toNat_inj, UInt64.toNat_or, UInt64.toNat_shiftLeft, hplace, UInt8.toNat_toUInt64, toNat_low,
    UInt64.toNat_ofNat', UInt64.toNat_ofNat', or_shiftLeft_mod h]

theorem or_group32 (hbits : bits < 32) : UInt32.ofNat sum ||| (b &&& 0x7f).toUInt32 <<< UInt32.ofNat bits =
    UInt32.ofNat (sum + 2 ^ bits * (b.toNat % 128)) := by
  have hplace : (UInt32.ofNat bits).toNat % 32 = bits := by
    rw [UInt32.toNat_ofNat']
    omega
  rw [← UInt32.toNat_inj, UInt32.toNat_or, UInt32.toNat_shiftLeft, hplace, UInt8.toNat_toUInt32, toNat_low,
    UInt32.toNat_ofNat', UInt32.toNat_ofNat', or_shiftLeft_mod h]

end

theorem gather_nil {data : Bytes} {i length : Nat} (h : data.toList.drop (i + length) = []) (sum : UInt64) :
    gather data i length sum = .error .truncated := by
  have hsize := List.drop_eq_nil_iff.1 h
  rw [Array.length_toList] at hsize
  rw [gather, dif_neg (Nat.not_lt_of_le hsize)]

theorem gather_cons {data : Bytes} {i length sum : Nat} {b : UInt8} {bs : List UInt8}
    (h : data.toList.drop (i + length) = b :: bs) (hlength : length < maxLength) (hsum : sum < 2 ^ (7 * length)) :
    gather data i length (UInt64.ofNat sum) =
      if b.toNat < 128 then .ok (UInt64.ofNat (sum + 2 ^ (7 * length) * (b.toNat % 128)), length + 1)
      else if length + 1 = maxLength then .error (.malformed (.longCode i))
      else gather data i (length + 1) (UInt64.ofNat (sum + 2 ^ (7 * length) * (b.toNat % 128))) := by
  rw [maxLength] at hlength
  have hholds : data.Holds (i + length) (b :: bs) := h ▸ List.prefix_refl _
  obtain ⟨hi, hb⟩ := Array.getElem?_eq_some_iff.1 hholds.getElem?
  rw [gather, dif_pos hi]
  simp only [hb, and_high, or_group64 hsum b (show 7 * length < 64 by omega)]

/-- A sum of groups has room for another one above it. -/
theorem sum_lt {sum k : Nat} (hsum : sum < 2 ^ (7 * k)) (b : UInt8) :
    sum + 2 ^ (7 * k) * (b.toNat % 128) < 2 ^ (7 * (k + 1)) := by
  have hgroup : b.toNat % 128 < 2 ^ 7 := Nat.mod_lt _ (by decide)
  rw [Nat.mul_succ, Nat.pow_add]
  nlinarith

theorem sum_value (sum k : Nat) (b : UInt8) (bs : List UInt8) :
    sum + 2 ^ (7 * k) * (b.toNat % 128) + 2 ^ (7 * (k + 1)) * value bs = sum + 2 ^ (7 * k) * value (b :: bs) := by
  rw [value, Nat.mul_succ, Nat.pow_add]
  ring

/-- What checked reading comes to, some bytes of the code being behind it, by the code that begins here, if one does. -/
theorem gather_eq {data : Bytes} {i length room sum : Nat} (hroom : length + room = maxLength) (hpos : 0 < room)
    (hsum : sum < 2 ^ (7 * length)) : gather data i length (UInt64.ofNat sum) =
      match split ((data.toList.drop (i + length)).take room) with
      | some bs => .ok (UInt64.ofNat (sum + 2 ^ (7 * length) * value bs), length + bs.length)
      | none => if (data.toList.drop (i + length)).length < room then .error .truncated
        else .error (.malformed (.longCode i)) := by
  induction room generalizing length sum with
  | zero => cases hpos
  | succ room ih =>
    cases hdrop : data.toList.drop (i + length) with
    | nil => simp [gather_nil hdrop, split]
    | cons b bs =>
      have hnext : data.toList.drop (i + (length + 1)) = bs := by
        rw [← Nat.add_assoc, ← List.drop_drop, hdrop, List.drop_one, List.tail_cons]
      rw [gather_cons hdrop (by omega) hsum, List.take_succ_cons, split]
      by_cases hlast : b.toNat < 128
      · have hends : ¬continues b = true := by
          rw [continues_iff]
          omega
        rw [if_pos hlast, if_neg hends]
        simp [value]
      · have hmore : continues b = true := by
          rw [continues_iff]
          omega
        rw [if_neg hlast, if_pos hmore]
        by_cases hfull : room = 0
        · subst hfull
          rw [if_pos (by omega)]
          simp [split]
        · rw [if_neg (by omega), ih (by omega) (by omega) (sum_lt hsum b), hnext]
          cases split (bs.take room) with
          | none => simp
          | some cs =>
            rw [Option.map_some]
            simp only [sum_value, List.length_cons]
            rw [Nat.add_assoc, Nat.add_comm 1]

theorem run_bind_ok {σ α β : Type} {x : Visit σ α} {g : α → Visit σ β} {before after : σ} {a : α}
    (h : x.run.run before = (.ok a, after)) : (x >>= g).run.run before = (g a).run.run after := by
  rw [ExceptT.run_bind, StateT.run_bind, h]
  rfl

theorem run_ask {data : Bytes} {i : Nat} {b : UInt8} {bs : List UInt8} (h : data.Holds i (b :: bs)) (u : Use) :
    ∃ hi, (ask data i).run.run u = (.ok ⟨b, hi⟩, { u with reads := u.reads ++ [i] }) := by
  obtain ⟨hi, hb⟩ := Array.getElem?_eq_some_iff.1 h.getElem?
  refine ⟨hi, ?_⟩
  simp only [ask, dif_pos hi, hb]
  rfl

theorem run_shifted {bits : Nat} (h : bits < 32) (b : UInt8) (u : Use) : (shifted b bits).run.run u =
    (.ok ((b &&& 0x7f).toUInt32 <<< UInt32.ofNat bits), { u with shifts := u.shifts ++ [bits] }) := by
  simp only [shifted, if_pos h]
  rfl

/-- Unchecked reading behind a byte, as far as the code goes on. -/
theorem run_readOn {data : Bytes} {i k sum : Nat} {b : UInt8} {bs : List UInt8} (hcode : IsCode (b :: bs))
    (hholds : data.Holds (i + 1) bs) (hlength : k + bs.length ≤ maxLength) (hsum : sum < 2 ^ (7 * k)) (u : Use) :
    (readOn data i b (7 * k) (UInt32.ofNat sum)).run.run u =
      (.ok (UInt32.ofNat (sum + 2 ^ (7 * k) * value bs)),
        ⟨u.reads ++ List.range' (i + 1) bs.length, u.shifts ++ List.range' (7 * k) bs.length 7⟩) := by
  -- The sum so far stays below `2 ^ (7 * k)`, so that the next group is put behind it and no bit of it is lost.
  induction bs generalizing i k sum b u with
  | nil =>
    rcases isCode_cons.1 hcode with ⟨hlast, -⟩ | ⟨-, hcode⟩
    · rw [readOn, if_pos ((and_high b).2 hlast)]
      simp [value]
      rfl
    · exact absurd rfl hcode.ne_nil
  | cons c bs ih =>
    rcases isCode_cons.1 hcode with ⟨-, hnil⟩ | ⟨hmore, hcode⟩
    · cases hnil
    · have hhigh : ¬b &&& 0x80 = 0 := by
        rw [and_high]
        omega
      rw [List.length_cons, maxLength] at hlength
      obtain ⟨hi, hask⟩ := run_ask hholds u
      have hshift := run_shifted (show 7 * k < 32 by omega) c { u with reads := u.reads ++ [i + 1] }
      have hrest := ih hcode (Bytes.holds_cons.1 hholds).2 (k := k + 1) (by rw [maxLength]; omega) (sum_lt hsum c)
      rw [readOn, if_neg hhigh, run_bind_ok hask, run_bind_ok hshift, or_group32 hsum c (by omega), ← Nat.mul_succ,
        hrest, sum_value]
      simp [List.range'_succ, Nat.mul_succ]

theorem run_readWord {data : Bytes} {i : Nat} {bs : List UInt8} (hholds : data.Holds i bs) (hcode : IsCode bs)
    (hlength : bs.length ≤ maxLength) : (readWord data i).run.run ⟨[], []⟩ =
      (.ok (UInt32.ofNat (value bs)), ⟨List.range' i bs.length, List.range' 7 (bs.length - 1) 7⟩) := by
  obtain ⟨b, bs, rfl⟩ := List.exists_cons_of_ne_nil hcode.ne_nil
  obtain ⟨hi, hask⟩ := run_ask hholds ⟨[], []⟩
  have hfirst : (b &&& 0x7f).toUInt32 = UInt32.ofNat (b.toNat % 128) := by
    rw [← UInt32.toNat_inj, UInt8.toNat_toUInt32, toNat_low, UInt32.toNat_ofNat']
    omega
  have hgroup : b.toNat % 128 < 2 ^ (7 * 1) := Nat.mod_lt _ (by decide)
  have hrest := run_readOn hcode (Bytes.holds_cons.1 hholds).2 (by rwa [Nat.add_comm]) hgroup ⟨[i], []⟩
  rw [readWord, run_bind_ok hask]
  show (readOn data i b (7 * 1) (b &&& 0x7f).toUInt32).run.run ⟨[i], []⟩ = _
  rw [hfirst, hrest, value]
  simp [List.range'_succ]

theorem run_skipOn {data : Bytes} {i : Nat} {bs : List UInt8} (hholds : data.Holds i bs) (hcode : IsCode bs) (u : Use) :
    (skipOn data i).run.run u = (.ok (i + bs.length), { u with reads := u.reads ++ List.range' i bs.length }) := by
  induction bs generalizing i u with
  | nil => exact absurd rfl hcode.ne_nil
  | cons b bs ih =>
    obtain ⟨hi, hask⟩ := run_ask hholds u
    rw [skipOn, run_bind_ok hask]
    show (if b &&& 0x80 = 0 then pure (i + 1) else skipOn data (i + 1) : Visit Use Nat).run.run _ = _
    rcases isCode_cons.1 hcode with ⟨hlast, rfl⟩ | ⟨hmore, hcode⟩
    · rw [if_pos ((and_high b).2 hlast)]
      rfl
    · have hhigh : ¬b &&& 0x80 = 0 := by
        rw [and_high]
        omega
      rw [if_neg hhigh, ih (Bytes.holds_cons.1 hholds).2 hcode]
      simp [List.range'_succ, Nat.add_assoc, Nat.add_comm 1]

theorem value_lt (bs : List UInt8) : value bs < 128 ^ bs.length := by
  rw [value_eq_ofDigits, ← List.length_map (fun b : UInt8 => b.toNat % 128)]
  apply Nat.ofDigits_lt_base_pow_length (by decide)
  intro d hd
  obtain ⟨b, -, rfl⟩ := List.mem_map.1 hd
  exact Nat.mod_lt _ (by decide)

/-- Checked reading comes to the same byte by byte. -/
theorem decodeWord_eq (data : Bytes) (i : Nat) :
    decodeWord data i = (fun c => (UInt32.ofNat c.1, c.2)) <$> decode data i := by
  have hgather := @gather_eq data i 0 5 0 rfl (by decide) (by decide)
  rw [Nat.add_zero] at hgather
  rw [decodeWord, show (0 : UInt64) = UInt64.ofNat 0 from rfl, hgather, decode]
  simp only [window_eq]
  cases hsplit : split ((data.toList.drop i).take 5) with
  | none =>
    have hshort : ((data.toList.drop i).take 5).length < maxLength ↔ (data.toList.drop i).length < 5 := by
      rw [List.length_take, maxLength]
      omega
    simp only [hshort]
    split <;> rfl
  | some bs =>
    have hlength : bs.length ≤ 5 := by
      have := (split_eq_some.1 hsplit).1.length_le
      rw [List.length_take] at this
      omega
    have hlt : value bs < 2 ^ 64 := by
      calc value bs < 128 ^ bs.length := value_lt bs
        _ ≤ 128 ^ 5 := Nat.pow_le_pow_right (by decide) hlength
        _ < 2 ^ 64 := by decide
    have hsum : (UInt64.ofNat (0 + 2 ^ (7 * 0) * value bs)).toNat = value bs := by
      rw [UInt64.toNat_ofNat']
      omega
    have hfits : UInt64.ofNat (0 + 2 ^ (7 * 0) * value bs) ≤ 0xffffffff ↔ value bs ≤ maxValue := by
      rw [UInt64.le_iff_toNat_le, hsum]
      rfl
    simp only [ok_bind, hfits]
    split
    · show Except.ok ((UInt64.ofNat (0 + 2 ^ (7 * 0) * value bs)).toUInt32, 0 + bs.length) = _
      rw [Nat.zero_add, Nat.zero_add, Nat.mul_zero, Nat.pow_zero, Nat.one_mul, UInt64.toUInt32_ofNat']
      rfl
    · rfl

/-- Where checked reading finds a number, unchecked reading finds the same, and skipping the position behind it. They ask
for the bytes of the code, one after the other, and for no other byte, and no group is shifted by more than 28 bits. -/
theorem decode_unchecked {data : Bytes} {i v n : Nat} (h : decode data i = .ok (v, n)) :
    decodeWord data i = .ok (UInt32.ofNat v, n) ∧ v < 2 ^ 32 ∧ i + n ≤ data.size ∧
    (readWord data i).run.run ⟨[], []⟩ = (.ok (UInt32.ofNat v), ⟨List.range' i n, List.range' 7 (n - 1) 7⟩) ∧
    (skipOn data i).run.run ⟨[], []⟩ = (.ok (i + n), ⟨List.range' i n, []⟩) ∧
    valueAt data i = .ok (UInt32.ofNat v) ∧ skip data i = .ok (i + n) ∧
    (∀ p ∈ List.range' i n, i ≤ p ∧ p < i + n) ∧ ∀ bits ∈ List.range' 7 (n - 1) 7, bits ≤ 28 := by
  obtain ⟨hvalue, hskip, hlength⟩ := decode_sound h
  have hword : decodeWord data i = .ok (UInt32.ofNat v, n) := by rw [decodeWord_eq, h, map_ok]
  generalize hresult : (Except.ok (v, n) : Except StreamError (Nat × Nat)) = result at h
  cases decode_iff.1 h with
  | @number bs hholds hcode hfive hfits =>
    obtain ⟨rfl, rfl⟩ := Prod.mk.inj (Except.ok.inj hresult)
    rw [← value_eq_ofDigits] at hfits hvalue hword ⊢
    refine ⟨hword, by omega, hholds.le_size hcode.ne_nil, run_readWord hholds hcode hfive,
      run_skipOn hholds hcode ⟨[], []⟩, hvalue, hskip, fun p hp => List.mem_range'_1.1 hp, ?_⟩
    intro bits hbits
    obtain ⟨k, hk, rfl⟩ := List.mem_range'.1 hbits
    omega
  | large => cases hresult
  | truncated => cases hresult
  | long => cases hresult

/-- The number 1 in three bytes, between others. -/
theorem decode_unchecked_padded : decode #[0xff, 0x81, 0x80, 0x00, 0xff] 1 = .ok (1, 3) ∧
    (readWord #[0xff, 0x81, 0x80, 0x00, 0xff] 1).run.run ⟨[], []⟩ = (.ok 1, ⟨[1, 2, 3], [7, 14]⟩) ∧
    (skipOn #[0xff, 0x81, 0x80, 0x00, 0xff] 1).run.run ⟨[], []⟩ = (.ok 4, ⟨[1, 2, 3], []⟩) := by
  have h : decode #[0xff, 0x81, 0x80, 0x00, 0xff] 1 = .ok (1, 3) := by decide
  obtain ⟨-, -, -, hread, hskip, -⟩ := decode_unchecked h
  exact ⟨h, hread, hskip⟩

end WordAutomata.VCode
