import WordAutomata.Order

namespace WordAutomata

/-- A word comes before another one: byte by byte, the bytes unsigned, a proper beginning first. -/
def Precedes : Word → Word → Prop := List.Lex (· < ·)

/-- Words in ascending order, none twice. -/
def Ascending (words : List Word) : Prop := words.Pairwise Precedes

theorem compareWords_eq_lt {a b : Word} : compareWords a b = .lt ↔ Precedes a b := by
  induction a generalizing b with
  | nil =>
    cases b with
    | nil => simp [comparePlain, Precedes]
    | cons y b => simp [comparePlain, Precedes]
  | cons x a ih =>
    cases b with
    | nil => simp [comparePlain, Precedes]
    | cons y b =>
      rw [compareWords, comparePlain, Ordering.then_eq_lt, Std.compare_eq_lt, Std.LawfulEqCmp.compare_eq_iff_eq, ih, Precedes,
        List.cons_lex_cons_iff]

instance (a b : Word) : Decidable (Precedes a b) := decidable_of_iff _ compareWords_eq_lt

instance (words : List Word) : Decidable (Ascending words) := inferInstanceAs (Decidable (words.Pairwise Precedes))

theorem compareWords_eq_eq {a b : Word} : compareWords a b = .eq ↔ a = b := Std.LawfulEqCmp.compare_eq_iff_eq

theorem compareWords_eq_gt {a b : Word} : compareWords a b = .gt ↔ Precedes b a := by
  rw [← compareWords_eq_lt, Std.OrientedCmp.gt_iff_lt]

theorem Precedes.trans {a b c : Word} (hab : Precedes a b) (hbc : Precedes b c) : Precedes a c := by
  rw [← compareWords_eq_lt] at *
  exact Std.TransCmp.lt_trans hab hbc

theorem Precedes.irrefl (a : Word) : ¬Precedes a a := by
  rw [← compareWords_eq_lt, compareWords, (Std.ReflCmp.compare_self : comparePlain a a = .eq)]
  decide

theorem Ascending.nodup {words : List Word} (h : Ascending words) : words.Nodup := by
  refine h.imp ?_
  rintro a b hab rfl
  exact hab.irrefl

/-- There is one ascending order of the same words. -/
theorem Ascending.eq_of_mem_iff {V W : List Word} (hV : Ascending V) (hW : Ascending W) (h : ∀ w, w ∈ V ↔ w ∈ W) :
    V = W := by
  have hperm : V.Perm W := (List.perm_ext_iff_of_nodup hV.nodup hW.nodup).2 h
  refine hperm.eq_of_pairwise ?_ hV hW
  intro a b _ _ hab hba
  exact absurd (hab.trans hba) (Precedes.irrefl a)

/-- A word that comes after the last one comes after all of them. -/
theorem Ascending.concat {words : List Word} (h : Ascending words) {w : Word}
    (hlast : ∀ p ∈ words.getLast?, Precedes p w) : Ascending (words ++ [w]) := by
  rcases List.eq_nil_or_concat words with rfl | ⟨init, p, rfl⟩
  · exact List.pairwise_singleton _ w
  · rw [List.concat_eq_append] at h hlast ⊢
    have hpw : Precedes p w := hlast p (by simp)
    refine List.pairwise_append.2 ⟨h, List.pairwise_singleton _ w, ?_⟩
    intro a ha v hv
    obtain rfl := List.mem_singleton.1 hv
    rcases List.mem_append.1 ha with ha | ha
    · exact ((List.pairwise_append.1 h).2.2 a ha p (by simp)).trans hpw
    · exact List.mem_singleton.1 ha ▸ hpw

theorem commonLength_le_left (a b : Word) : commonLength a b ≤ a.length := by
  fun_induction commonLength a b <;> simp_all

theorem commonLength_le_right (a b : Word) : commonLength a b ≤ b.length := by
  fun_induction commonLength a b <;> simp_all

theorem take_commonLength (a b : Word) : a.take (commonLength a b) = b.take (commonLength a b) := by
  fun_induction commonLength a b with
  | case1 a as bs ih => rw [List.take_succ_cons, List.take_succ_cons, ih]
  | case2 => rfl
  | case3 => rfl

/-- No beginning of both words is longer than what they are said to share. -/
theorem le_commonLength {a b : Word} {n : Nat} (ha : n ≤ a.length) (hb : n ≤ b.length) (h : a.take n = b.take n) :
    n ≤ commonLength a b := by
  induction n generalizing a b with
  | zero => exact Nat.zero_le _
  | succ n ih =>
    obtain ⟨x, a, rfl⟩ := List.exists_cons_of_length_pos (Nat.lt_of_lt_of_le n.succ_pos ha)
    obtain ⟨y, b, rfl⟩ := List.exists_cons_of_length_pos (Nat.lt_of_lt_of_le n.succ_pos hb)
    rw [List.take_succ_cons, List.take_succ_cons, List.cons_eq_cons] at h
    obtain ⟨rfl, h⟩ := h
    rw [commonLength, if_pos rfl]
    apply Nat.succ_le_succ
    exact ih (Nat.le_of_succ_le_succ ha) (Nat.le_of_succ_le_succ hb) h

/-- A word comes before another one if that one goes on where they part, and the word ends there or has a smaller label. -/
theorem precedes_iff_parts {a b : Word} : Precedes a b ↔ ∃ hb : commonLength a b < b.length,
    commonLength a b = a.length ∨ ∃ ha : commonLength a b < a.length, a[commonLength a b] < b[commonLength a b] := by
  fun_induction commonLength a b with
  | case1 x a b ih => simpa [Precedes, List.cons_lex_cons_iff] using ih
  | case2 x a y b hne => simp [Precedes, List.cons_lex_cons_iff, hne]
  | case3 a b hnil =>
    cases a with
    | nil => cases b <;> simp [Precedes]
    | cons x a =>
      cases b with
      | nil => simp [Precedes]
      | cons y b => exact absurd rfl (hnil x a y b rfl)

/-- Where a word parts from one before it, it has a label, and the one before ends or has a smaller one. -/
theorem Precedes.parts {a b : Word} (h : Precedes a b) :
    ∃ c rest, b = a.take (commonLength a b) ++ c :: rest ∧ ∀ d ∈ a[commonLength a b]?, d < c := by
  induction a generalizing b with
  | nil =>
    cases b with
    | nil => exact absurd h (Precedes.irrefl [])
    | cons y b => exact ⟨y, b, by simp [commonLength], by simp⟩
  | cons x a ih =>
    cases h with
    | @rel _ _ y b hxy =>
      have hne := UInt8.ne_of_lt hxy
      exact ⟨y, b, by simp [commonLength, hne], by simpa [commonLength, hne] using hxy⟩
    | cons h =>
      obtain ⟨c, rest, hb, hc⟩ := ih h
      refine ⟨c, rest, ?_, by simpa [commonLength] using hc⟩
      rw [commonLength, if_pos rfl, List.take_succ_cons, List.cons_append, ← hb]

/-- A word between two others begins with whatever both of them begin with. -/
theorem prefix_of_between {u a b c : Word} (hua : u <+: a) (huc : u <+: c) (hab : Precedes a b) (hbc : Precedes b c) :
    u <+: b := by
  induction u generalizing a b c with
  | nil => exact List.nil_prefix
  | cons x u ih =>
    obtain ⟨a, rfl⟩ := hua
    obtain ⟨c, rfl⟩ := huc
    cases hab with
    | rel hxy =>
      cases hbc with
      | rel hyx => exact absurd hxy (UInt8.lt_asymm hyx)
      | cons => exact absurd hxy (UInt8.lt_irrefl x)
    | cons hab =>
      cases hbc with
      | rel hxx => exact absurd hxx (UInt8.lt_irrefl x)
      | cons hbc => exact (List.cons_prefix_cons).2 ⟨rfl, ih (List.prefix_append u a) (List.prefix_append u c) hab hbc⟩

end WordAutomata
