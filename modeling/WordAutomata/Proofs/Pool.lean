import WordAutomata.Proofs.Frozen
import WordAutomata.Proofs.Reading

namespace WordAutomata

open Std (TreeMap)

namespace Record

theorem toBytes_injective {r s : Record} {isLast isLast' : Bool} (h : r.toBytes isLast = s.toBytes isLast') :
    r = s ∧ isLast = isLast' := by
  obtain ⟨c, isFinal, t⟩ := r
  obtain ⟨c', isFinal', t'⟩ := s
  simp only [toBytes, List.cons.injEq] at h
  obtain ⟨hmarks, rfl, htarget⟩ := h
  have hnat : t.toNat = t'.toNat := by
    have h := congrArg ofBig htarget
    have := t.toNat_lt
    have := t'.toNat_lt
    rw [ofBig_big, ofBig_big] at h
    omega
  obtain rfl := UInt32.toNat_inj.1 hnat
  revert hmarks
  cases isFinal <;> cases isFinal' <;> cases isLast <;> cases isLast' <;> simp

theorem length_toBytes (r : Record) (isLast : Bool) : (r.toBytes isLast).length = size := by
  simp [toBytes, size]

theorem rowBytes_cons (r : Record) (rs : List Record) : rowBytes (r :: rs) = r.toBytes rs.isEmpty ++ rowBytes rs := by
  cases rs <;> simp [rowBytes]

theorem length_rowBytes (rs : List Record) : (rowBytes rs).length = size * rs.length := by
  induction rs with
  | nil => rfl
  | cons r rs ih =>
    rw [rowBytes_cons, List.length_append, length_toBytes, ih, List.length_cons, size]
    omega

theorem rowBytes_injective {rs rs' : List Record} (h : rowBytes rs = rowBytes rs') : rs = rs' := by
  induction rs generalizing rs' with
  | nil =>
    have hlen := congrArg List.length h
    rw [length_rowBytes, length_rowBytes] at hlen
    cases rs' with
    | nil => rfl
    | cons => simp [size] at hlen
  | cons r rs ih =>
    cases rs' with
    | nil =>
      have hlen := congrArg List.length h
      rw [length_rowBytes, length_rowBytes] at hlen
      simp [size] at hlen
    | cons r' rs' =>
      rw [rowBytes_cons, rowBytes_cons] at h
      obtain ⟨hhead, htail⟩ := List.append_inj h (by rw [length_toBytes, length_toBytes])
      rw [(toBytes_injective hhead).1, ih htail]

end Record

namespace Frozen

variable {ends : Record → Prop}

theorem row_of_suffix {old new : Frozen} (h : SoundOr ends new) (hsuffix : old <:+ new) {a : Nat} {rs : List Record}
    (ha : row old a = some rs) : row new a = some rs := by
  obtain ⟨added, rfl⟩ := hsuffix
  induction added with
  | nil => exact ha
  | cons x added ih => exact row_cons_of_row h.2.2.2 (ih h.2.2.2)

theorem LeadsOr.of_suffix {old new : Frozen} (h : SoundOr ends new) (hsuffix : old <:+ new) {r : Record}
    (hr : LeadsOr ends old r) : LeadsOr ends new r := by
  rcases hr with hr | ⟨rs, hr⟩
  · exact .inl hr
  · exact .inr ⟨rs, row_of_suffix h hsuffix hr⟩

theorem Stored.of_suffix {old new : Frozen} (h : SoundOr ends new) (hsuffix : old <:+ new) {a : UInt32} (ha : Stored old a) :
    Stored new a := by
  rcases ha with ha | ⟨rs, ha⟩
  · exact .inl ha
  · exact .inr ⟨rs, row_of_suffix h hsuffix ha⟩

theorem words_of_suffix {old new : Frozen} (h : SoundOr ends new) (hsuffix : old <:+ new) {a : UInt32} (ha : Stored old a) :
    words new a = words old a := by
  obtain ⟨added, rfl⟩ := hsuffix
  induction added with
  | nil => rfl
  | cons x added ih =>
    have ha' := ha.of_suffix h.2.2.2 (List.suffix_append added old)
    exact (words_cons h.2.2.2 ha' x).trans (ih h.2.2.2)

theorem flatMap_words_of_suffix {old new : Frozen} (h : SoundOr ends new) (hsuffix : old <:+ new) {rs : List Record}
    (hrs : ∀ r ∈ rs, LeadsOr ends old r) : rs.flatMap (Record.words (words new)) = rs.flatMap (Record.words (words old)) := by
  refine List.flatMap_congr fun r hr => ?_
  rw [Record.words, Record.words, words_of_suffix h hsuffix (hrs r hr).stored]

end Frozen

namespace Pool

/-- The register knows where each frozen state is, and nothing else. -/
structure SoundOr (ends : Record → Prop) (p : Pool) : Prop where
  states : Frozen.SoundOr ends p.states
  arcs_eq : p.arcs = Frozen.arcs p.states
  register_iff : ∀ key a, p.register[key]? = some a ↔
    ∃ rs, key = Record.rowBytes rs ∧ Frozen.row p.states a.toNat = some rs
  small : Frozen.behind p.states < 2 ^ 32

abbrev Sound (p : Pool) : Prop := SoundOr (fun r => r.isFinal = true) p

variable {ends : Record → Prop}

theorem sound_empty : SoundOr ends empty := by
  refine ⟨trivial, rfl, ?_, by decide⟩
  intro key a
  simp [empty, Frozen.row]

namespace SoundOr

variable {p : Pool} (h : p.SoundOr ends)

include h

theorem size_eq : p.size = Frozen.behind p.states := by
  rw [size, h.arcs_eq, Frozen.behind]

theorem register_row {rs : List Record} {a : UInt32} :
    p.register[Record.rowBytes rs]? = some a ↔ Frozen.row p.states a.toNat = some rs := by
  rw [h.register_iff]
  constructor
  · intro ⟨rs', hkey, hrow⟩
    rwa [Record.rowBytes_injective hkey]
  · exact fun hrow => ⟨rs, rfl, hrow⟩

theorem notMem_of_register {rs : List Record} (hnone : p.register[Record.rowBytes rs]? = none) : rs ∉ p.states := by
  intro hmem
  obtain ⟨a, ha⟩ := (Frozen.mem_iff_row h.states.ne_nil).1 hmem
  have hlt := Nat.lt_trans (Frozen.lt_behind h.states ha) h.small
  rw [← UInt32.toNat_ofNat_of_lt' hlt, ← h.register_row, hnone] at ha
  cases ha

theorem store {rs : List Record} (hrs : Frozen.ProperOr ends p.states rs) (hnew : rs ∉ p.states)
    (hfits : Frozen.behind (rs :: p.states) < 2 ^ 32) :
    SoundOr ends { p with
      states := rs :: p.states
      arcs := p.arcs + rs.length
      register := p.register.insert (Record.rowBytes rs) (UInt32.ofNat (Frozen.behind p.states)) } := by
  refine ⟨⟨hrs, hnew, h.small, h.states⟩, ?_, ?_, hfits⟩
  · simp [h.arcs_eq, Nat.add_comm]
  · intro key a
    simp only [TreeMap.getElem?_insert, compareWords_eq_eq]
    split
    · rename_i hkey
      constructor
      · intro ha
        obtain rfl : UInt32.ofNat (Frozen.behind p.states) = a := by simpa using ha
        exact ⟨rs, hkey.symm, Frozen.row_latest h.small rs⟩
      · intro ⟨rs', hkey', hrow⟩
        obtain rfl := Record.rowBytes_injective (hkey.trans hkey')
        rcases Frozen.row_cases hrow with ⟨ha, -⟩ | ⟨-, hrow⟩
        · rw [← ha, UInt32.ofNat_toNat]
        · exact absurd ((Frozen.mem_iff_row h.states.ne_nil).2 ⟨_, hrow⟩) hnew
    · rename_i hkey
      rw [h.register_iff]
      constructor
      · intro ⟨rs', hkey', hrow⟩
        exact ⟨rs', hkey', Frozen.row_cons_of_row h.states hrow⟩
      · intro ⟨rs', hkey', hrow⟩
        refine ⟨rs', hkey', ?_⟩
        rcases Frozen.row_cases hrow with ⟨-, rfl⟩ | ⟨-, hrow⟩
        · exact absurd hkey'.symm hkey
        · exact hrow

end SoundOr

theorem freeze_cases {p : Pool} (h : p.SoundOr ends) {rs : List Record} (hrs : Frozen.ProperOr ends p.states rs) :
    (∃ a p', p.freeze rs = .ok (a, p') ∧ p'.SoundOr ends ∧ Frozen.row p'.states a.toNat = some rs ∧
      (p'.states = p.states ∨ p'.states = rs :: p.states)) ∨
    p.freeze rs = .error .capacityExceeded ∧ rs ∉ p.states ∧ 2 ^ 32 ≤ Frozen.behind (rs :: p.states) := by
  unfold freeze
  cases hreg : p.register[Record.rowBytes rs]? with
  | some a =>
    exact .inl ⟨a, _, rfl, ⟨h.states, h.arcs_eq, h.register_iff, h.small⟩, h.register_row.1 hreg, .inl rfl⟩
  | none =>
    have hnew := h.notMem_of_register hreg
    have hbehind : p.size + Record.size * rs.length = Frozen.behind (rs :: p.states) := by
      rw [h.size_eq, Frozen.behind_cons]
    by_cases hfits : p.size + Record.size * rs.length < 2 ^ 32
    · refine .inl ⟨_, _, if_pos hfits, ?_, ?_, .inr rfl⟩
      · rw [h.size_eq]
        exact h.store hrs hnew (hbehind ▸ hfits)
      · rw [h.size_eq, Frozen.row, if_pos (UInt32.toNat_ofNat_of_lt' h.small)]
    · exact .inr ⟨if_neg hfits, hnew, by omega⟩

/-- A state that has not been stored yet is stored behind all others if there is room for it. -/
theorem freeze_new {p : Pool} (h : p.SoundOr ends) {rs : List Record} (hrs : Frozen.ProperOr ends p.states rs)
    (hnew : rs ∉ p.states) (hroom : Frozen.behind (rs :: p.states) < 2 ^ 32) :
    ∃ a p', p.freeze rs = .ok (a, p') ∧ p'.SoundOr ends ∧ p'.states = rs :: p.states ∧ a.toNat = Frozen.behind p.states ∧
      Frozen.row p'.states a.toNat = some rs := by
  rcases freeze_cases h hrs with ⟨a, p', hok, hp', hrow, hsame | hstates⟩ | ⟨-, -, hfull⟩
  · rw [hsame] at hrow
    exact absurd ((Frozen.mem_iff_row h.states.ne_nil).2 ⟨_, hrow⟩) hnew
  · refine ⟨a, p', hok, hp', hstates, ?_, hrow⟩
    rw [hstates] at hrow
    rcases Frozen.row_cases hrow with ⟨hplace, -⟩ | ⟨-, hrow⟩
    · exact hplace
    · exact absurd ((Frozen.mem_iff_row h.states.ne_nil).2 ⟨_, hrow⟩) hnew
  · exact absurd hroom (Nat.not_lt.2 hfull)

theorem freeze_full {p : Pool} (h : p.SoundOr ends) {rs : List Record} (hrs : Frozen.ProperOr ends p.states rs)
    (hnew : rs ∉ p.states) (hfull : 2 ^ 32 ≤ Frozen.behind (rs :: p.states)) : p.freeze rs = .error .capacityExceeded := by
  rcases freeze_cases h hrs with ⟨a, p', -, hp', hrow, hsame | hstates⟩ | ⟨herror, -, -⟩
  · rw [hsame] at hrow
    exact absurd ((Frozen.mem_iff_row h.states.ne_nil).2 ⟨_, hrow⟩) hnew
  · exact absurd (hstates ▸ hp'.small) (Nat.not_lt.2 hfull)
  · exact herror

end Pool

end WordAutomata
