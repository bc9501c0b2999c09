import WordAutomata.Proofs.Reading
import WordAutomata.Stream

namespace WordAutomata

namespace Header

variable {data : Bytes} (h : size + 3 ≤ data.size)
include h

-- Both layouts have three bytes of their own behind the header.

theorem first_lt : size < data.size := by omega

theorem second_lt : size + 1 < data.size := by omega

theorem third_lt : size + 2 < data.size := h

end Header

namespace Uniform

/-- What a buffer that is long enough for a head says. -/
def opened (data : Bytes) (h : bodyOffset ≤ data.size) : Uniform :=
  have := Header.first_lt h
  have := Header.second_lt h
  have := Header.third_lt h
  { filler := data[Header.size]
    annotation := data[Header.size + 1]
    countWidth := data[Header.size + 2].toNat / 16
    addressWidth := data[Header.size + 2].toNat % 16
    body := data.extract bodyOffset data.size }

/-- What is checked of the widths and of the body. -/
def check (u : Uniform) : Except StreamError Uniform :=
  if u.addressWidth = 0 ∨ 8 < u.addressWidth then .error (.malformed (.addressWidth u.addressWidth))
  else if 4 < u.countWidth then .error (.malformed (.countWidth u.countWidth))
  else if u.isComplete then .ok u
  else .error .truncated

theorem isComplete_iff (u : Uniform) : u.isComplete = true ↔
    ∃ position, u.behind (u.epsilon + u.countWidth) = .ok position ∧ position ≤ u.body.size := by
  rw [isComplete]
  cases u.behind (u.epsilon + u.countWidth) with
  | error f => simp
  | ok position => simp

theorem ofBytes_step (data : Bytes) : ofBytes data = Header.parse data >>= fun header =>
    if header.version ≠ version then .error (.unsupportedVersion header.version)
    else if h : bodyOffset ≤ data.size then (opened data h).check
    else .error .truncated := rfl

theorem check_eq_ok {u u' : Uniform} (h : u.check = .ok u') : u = u' := by
  rw [check] at h
  split at h
  · cases h
  · split at h
    · cases h
    · split at h
      · exact Except.ok.inj h
      · cases h

/-- A stream is read to its end. -/
theorem byteLength_of_ofBytes {data : Bytes} {u : Uniform} (h : ofBytes data = .ok u) : u.byteLength = data.size := by
  rw [ofBytes_step] at h
  obtain ⟨header, -, h⟩ := bind_eq_ok.1 h
  split at h
  · cases h
  · split at h
    · rename_i hsize
      rw [← check_eq_ok h, byteLength]
      show bodyOffset + (data.extract bodyOffset data.size).size = data.size
      rw [Array.size_extract]
      omega
    · cases h

theorem target_step (u : Uniform) (a : Arc) : u.target a = do
    let m ← u.marks a.offset.toNat
    let address ← (if m.testBit 2 then u.behind a.offset.toNat
      else (· / 8) <$> u.body.littleAt (a.offset.toNat + 1) u.addressWidth)
    return if UInt32.ofNat address = 0 then none else some ⟨UInt32.ofNat address⟩ := by
  rw [target]
  congr 1
  funext m
  split <;> rfl

end Uniform

namespace Compact

/-- Entries of the table, by the byte before it. -/
def entries (data : Bytes) (h : tableOffset ≤ data.size) : Nat :=
  have := Header.third_lt h
  data[Header.size + 2].toNat

/-- What a buffer that is long enough for a head says. -/
def opened (data : Bytes) (h : tableOffset ≤ data.size) : Compact :=
  have := Header.first_lt h
  have := Header.second_lt h
  { flags := Flags.ofMask (ofBig [data[Header.size], data[Header.size + 1]])
    labels := data.extract tableOffset (tableOffset + entries data h)
    body := data.extract (tableOffset + entries data h) data.size }

theorem ofBytes_step (data : Bytes) : ofBytes data = Header.parse data >>= fun header =>
    if header.version ≠ version then .error (.unsupportedVersion header.version)
    else if h : tableOffset ≤ data.size then
      if maxLabels < entries data h then .error (.malformed (.labelTable (entries data h)))
      else if data.size ≤ tableOffset + entries data h then .error .truncated
      else (opened data h).checkEpsilon >>= fun _ => .ok (opened data h)
    else .error .truncated := rfl

/-- A stream is read to its end. -/
theorem byteLength_of_ofBytes {data : Bytes} {c : Compact} (h : ofBytes data = .ok c) : c.byteLength = data.size := by
  rw [ofBytes_step] at h
  obtain ⟨header, -, h⟩ := bind_eq_ok.1 h
  split at h
  · cases h
  · split at h
    · rename_i hsize
      split at h
      · cases h
      · split at h
        · cases h
        · rename_i hbehind
          obtain ⟨_, -, h⟩ := bind_eq_ok.1 h
          rw [← Except.ok.inj h, byteLength]
          show tableOffset + (data.extract tableOffset (tableOffset + entries data hsize)).size +
            (data.extract (tableOffset + entries data hsize) data.size).size = data.size
          rw [Array.size_extract, Array.size_extract]
          omega
    · cases h

/-- The place of the first arc, if what stands before it is sound. -/
def epsilonArc (c : Compact) : Except StreamError Nat :=
  if c.flags.numbers then Prod.snd <$> VCode.decode c.body 0 else .ok 0

/-- What is checked of an arc that begins with given marks: its address, if it has one. -/
def checkAddress (c : Compact) (arc : Nat) (m : UInt8) : Except StreamError Unit :=
  if m.toNat.testBit 7 then .ok () else (fun _ => ()) <$> VCode.decode c.body (arc + addressOffset m.toNat)

theorem checkAddress_step (c : Compact) (arc : Nat) (m : UInt8) : c.checkAddress arc m = (do
    if !m.toNat.testBit 7 then
      let _ ← VCode.decode c.body (arc + addressOffset m.toNat)) := by
  rw [checkAddress]
  cases m.toNat.testBit 7 with
  | true => rfl
  | false => cases VCode.decode c.body (arc + addressOffset m.toNat) <;> rfl

theorem checkEpsilon_step (c : Compact) : c.checkEpsilon = c.epsilonArc >>= fun arc =>
    match c.body[arc]? with
    | none => .error .truncated
    | some m => c.checkAddress arc m := by
  simp only [checkAddress_step]
  rw [checkEpsilon, epsilonArc]
  split <;> rfl

/-- The end of a state is looked for arc by arc. -/
theorem behindState_step (c : Compact) (arc : Nat) : c.behindState arc = (do
    if (← c.marks arc).testBit 6 then c.behind arc else c.behindState (← c.behind arc)) := by
  rw [behindState]
  congr 1
  funext m
  split
  · rfl
  · split
    · rename_i f hf
      simp [hf]
    · rename_i next hnext
      simp [hnext]

theorem target_step (c : Compact) (a : Arc) : c.target a = do
    let m ← c.marks a.offset.toNat
    let offset ← (if m.testBit 7 then UInt32.ofNat <$> c.behindState a.offset.toNat
      else VCode.valueAt c.body (a.offset.toNat + addressOffset m))
    return if offset = 0 then none else some ⟨offset⟩ := by
  rw [target]
  congr 1
  funext m
  split <;> rfl

end Compact

theorem Stream.byteLength_of_ofBytes {data : Bytes} {x : Stream} (h : ofBytes data = .ok x) :
    x.byteLength = data.size := by
  obtain ⟨header, -, h⟩ := bind_eq_ok.1 h
  split at h
  · obtain ⟨u, hu, h⟩ := bind_eq_ok.1 h
    obtain rfl : uniform u = x := Except.ok.inj h
    exact Uniform.byteLength_of_ofBytes hu
  · split at h
    · obtain ⟨c, hc, h⟩ := bind_eq_ok.1 h
      obtain rfl : compact c = x := Except.ok.inj h
      exact Compact.byteLength_of_ofBytes hc
    · cases h

end WordAutomata
