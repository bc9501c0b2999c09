import WordAutomata.Proofs.Reached

namespace WordAutomata

/-- What some words properly begin with. -/
def beginnings (words : List Word) : Set Word := {u | ∃ w ∈ words, u <+: w ∧ u ≠ w}

theorem finite_beginnings (words : List Word) : (beginnings words).Finite := by
  refine (List.finite_toSet (words.flatMap List.inits)).subset ?_
  rintro u ⟨w, hw, hu, -⟩
  exact List.mem_flatMap.2 ⟨w, hw, (List.mem_inits u w).2 hu⟩

theorem length_lt_of_properly {u w : Word} (hu : u <+: w) (hne : u ≠ w) : u.length < w.length :=
  Nat.lt_of_le_of_ne hu.length_le fun heq => hne (hu.eq_of_length heq)

theorem take_properly {w : Word} {k : Nat} (hk : k < w.length) : w.take k <+: w ∧ w.take k ≠ w := by
  refine ⟨List.take_prefix k w, ?_⟩
  intro heq
  have hlength := congrArg List.length heq
  rw [List.length_take] at hlength
  omega

theorem ncard_takes (w : Word) (n : Nat) : ((fun k => w.take k) '' Set.Ico n w.length).ncard = w.length - n := by
  have hinj : Set.InjOn (fun k => w.take k) (Set.Ico n w.length) := by
    intro j hj k hk heq
    have hlength := congrArg List.length heq
    rw [Set.mem_Ico] at hj hk
    simp only [List.length_take] at hlength
    omega
  rw [hinj.ncard_image, ← Finset.coe_Ico, Set.ncard_coe_finset, Nat.card_Ico]

theorem Precedes.not_prefix {v p : Word} (h : Precedes v p) : ¬p <+: v := by
  rintro ⟨rest, rfl⟩
  induction p with
  | nil => cases h
  | cons x p ih =>
    cases h with
    | rel hxx => exact UInt8.lt_irrefl x hxx
    | cons h => exact ih h

/-- What a word shares with a proper beginning of some word before it, the word right before it properly begins with. -/
theorem shared_with_last {words : List Word} {w : Word} (hasc : Ascending (words ++ [w])) {u : Word}
    (hu : u ∈ beginnings words) (huw : u <+: w) :
    ∃ p, words.getLast? = some p ∧ u <+: p ∧ u.length < p.length ∧ u.length ≤ commonLength p w := by
  obtain ⟨v, hv, huv, hne⟩ := hu
  obtain ⟨init, p, rfl⟩ := (List.eq_nil_or_concat words).resolve_left (List.ne_nil_of_mem hv)
  rw [List.concat_eq_append] at hasc hv ⊢
  obtain ⟨hbefore, -, hafter⟩ := List.pairwise_append.1 hasc
  have hpw : Precedes p w := hafter p (by simp) w (by simp)
  obtain ⟨hup, hproper⟩ : u <+: p ∧ u ≠ p := by
    rcases List.mem_append.1 hv with hv | hv
    · have hvp : Precedes v p := (List.pairwise_append.1 hbefore).2.2 v hv p (by simp)
      refine ⟨prefix_of_between huv huw hvp hpw, ?_⟩
      rintro rfl
      exact hvp.not_prefix huv
    · exact List.mem_singleton.1 hv ▸ ⟨huv, hne⟩
  exact ⟨p, by simp, hup, length_lt_of_properly hup hproper, length_le_commonLength hup huw⟩

/-- The next word begins like an earlier one up to where it parts from the path. The whole path, if it goes on from
there, has been no proper beginning before. -/
theorem take_mem_beginnings {words : List Word} {w : Word} (hasc : Ascending (words ++ [w])) {common : Nat} {c : UInt8}
    {rest : Word} (hparting : Builder.Parting (words.getLast?.getD []) w common c rest) {k : Nat} (hk : k < w.length) :
    w.take k ∈ beginnings words ↔ k < min (common + 1) (words.getLast?.getD []).length := by
  have hcommon := hparting.common_eq
  have hsplit := hparting.split_eq
  cases hlast : words.getLast? with
  | none =>
    obtain rfl : words = [] := List.getLast?_eq_none_iff.1 hlast
    simp [beginnings]
  | some p =>
    rw [hlast, Option.getD_some] at hcommon hsplit
    rw [Option.getD_some]
    constructor
    · intro hmem
      obtain ⟨q, hq, -, hlt, hle⟩ := shared_with_last hasc hmem (List.take_prefix k w)
      obtain rfl := Option.some.inj (hlast.symm.trans hq)
      rw [List.length_take_of_le (Nat.le_of_lt hk)] at hlt hle
      omega
    · intro hshared
      have hsame : w.take k = p.take k := by
        rw [hsplit, List.take_append_of_le_length (by rw [List.length_take]; omega), List.take_take]
        congr 1
        omega
      exact ⟨p, List.mem_of_getLast? hlast, hsame ▸ take_properly (Nat.lt_min.1 hshared).2⟩

theorem beginnings_concat {words : List Word} {w : Word} {n : Nat} (h : ∀ k < n, k < w.length → w.take k ∈ beginnings words) :
    beginnings (words ++ [w]) = beginnings words ∪ (fun k => w.take k) '' Set.Ico n w.length := by
  ext u
  constructor
  · rintro ⟨v, hv, huv, hne⟩
    rcases List.mem_append.1 hv with hv | hv
    · exact .inl ⟨v, hv, huv, hne⟩
    · obtain rfl := List.mem_singleton.1 hv
      have hlt := length_lt_of_properly huv hne
      have htake := List.prefix_iff_eq_take.1 huv
      by_cases hk : u.length < n
      · exact .inl (htake ▸ h u.length hk hlt)
      · exact .inr ⟨u.length, ⟨by omega, hlt⟩, htake.symm⟩
  · rintro (⟨v, hv, hu⟩ | ⟨k, hk, rfl⟩)
    · exact ⟨v, List.mem_append_left _ hv, hu⟩
    · exact ⟨w, by simp, take_properly hk.2⟩

theorem ncard_beginnings_concat {words : List Word} {w : Word} (hasc : Ascending (words ++ [w])) {common : Nat}
    {c : UInt8} {rest : Word} (hparting : Builder.Parting (words.getLast?.getD []) w common c rest) :
    (beginnings (words ++ [w])).ncard =
      (beginnings words).ncard + (w.length - min (common + 1) (words.getLast?.getD []).length) := by
  have hdisjoint : Disjoint (beginnings words)
      ((fun k => w.take k) '' Set.Ico (min (common + 1) (words.getLast?.getD []).length) w.length) := by
    rw [Set.disjoint_right]
    rintro u ⟨k, hk, rfl⟩ hmem
    have hshared := (take_mem_beginnings hasc hparting hk.2).1 hmem
    have hnew := hk.1
    omega
  rw [beginnings_concat fun k hshared hk => (take_mem_beginnings hasc hparting hk).2 hshared,
    Set.ncard_union_eq hdisjoint (finite_beginnings words) ((Set.finite_Ico _ _).image _), ncard_takes]

namespace Pool

/-- Freezing a state counts once, as a state stored or as one found again. -/
theorem freeze_tally {p p' : Pool} {rs : List Record} {a : UInt32} (h : p.freeze rs = .ok (a, p'))
    (hsize : p.register.size = p.states.length) :
    p'.register.size = p'.states.length ∧ p'.states.length + p'.hits = p.states.length + p.hits + 1 := by
  rw [freeze] at h
  split at h
  · cases h
    exact ⟨hsize, rfl⟩
  · rename_i hnone
    split at h
    · cases h
      have hnew : ¬p.register.contains (Record.rowBytes rs) := by simpa using hnone
      have hinsert : (p.register.insert (Record.rowBytes rs) (UInt32.ofNat p.size)).size = p.register.size + 1 := by
        rw [Std.TreeMap.size_insert, if_neg hnew]
      refine ⟨by rw [hinsert, hsize, List.length_cons], ?_⟩
      show p.states.length + 1 + p.hits = p.states.length + p.hits + 1
      omega
    · cases h

end Pool

theorem freezeTail_tally {p p' : Pool} {child a : UInt32} {n : Nat} {frames frames' : List Frame}
    (h : freezeTail p child n frames = .ok (a, p', frames')) (hn : n ≤ frames.length)
    (hsize : p.register.size = p.states.length) :
    p'.register.size = p'.states.length ∧ p'.states.length + p'.hits = p.states.length + p.hits + n := by
  induction n generalizing p child frames with
  | zero =>
    obtain ⟨-, rfl, -⟩ : child = a ∧ p = p' ∧ frames = frames' := by simpa [freezeTail] using h
    exact ⟨hsize, rfl⟩
  | succ n ih =>
    cases frames with
    | nil => simp at hn
    | cons f frames =>
      rw [freezeTail] at h
      obtain ⟨⟨b, q⟩, hfreeze, hrest⟩ := bind_eq_ok.1 h
      obtain ⟨hfirst, hcount⟩ := Pool.freeze_tally hfreeze hsize
      obtain ⟨hlast, hcounts⟩ := ih hrest (by simpa using hn) hfirst
      exact ⟨hlast, by omega⟩

namespace Builder

/-- What a builder tells once some words are added. -/
structure Accounted (words : List Word) (b : Builder) : Prop where
  sequences_eq : b.info.sequences = words.length
  states_eq : b.info.states = b.pool.states.length
  arcs_eq : b.info.arcs = (b.pool.states.map List.length).sum
  bytes_eq : b.info.bytes = b.buffer.size
  bytes_arcs : b.info.bytes = Record.size * (1 + b.info.arcs)
  /-- What words properly begin with is a state that is stored, or found again, or open. -/
  beginnings_eq : b.info.states + b.info.registerHits + (words.getLast?.getD []).length = (beginnings words).ncard

/-- A word is added on states frozen down to where it parts from the one before. -/
theorem add_tally {words : List Word} {b b' : Builder} (hbuilt : Built words words b) {w : Word}
    (hadd : b.add w = .ok b') (hstates : b.pool.register.size = b.pool.states.length) :
    b'.sequences = b.sequences + 1 ∧ b'.pool.register.size = b'.pool.states.length ∧
      b'.pool.states.length + b'.pool.hits = b.pool.states.length + b.pool.hits +
        ((words.getLast?.getD []).length - (commonLength (words.getLast?.getD []) w + 1)) := by
  have hlength : b.frames.length = (words.getLast?.getD []).length := by
    rw [← Frame.length_path, hbuilt.path_eq, hbuilt.previous_eq]
  rw [add, (add_eq_ok hadd).1] at hadd
  obtain ⟨⟨child, pool, frames⟩, hfreeze, hrest⟩ := bind_eq_ok.1 hadd
  obtain rfl := Except.ok.inj hrest
  obtain ⟨hsize, hcount⟩ := freezeTail_tally hfreeze (Nat.sub_le _ _) hstates
  rw [hlength, hbuilt.previous_eq] at hcount
  exact ⟨rfl, hsize, hcount⟩

theorem tally_of_foldlM {words : List Word} {b : Builder} (h : words.foldlM add empty = .ok b) :
    b.sequences = words.length ∧ b.pool.register.size = b.pool.states.length ∧
      b.pool.states.length + b.pool.hits + (words.getLast?.getD []).length = (beginnings words).ncard := by
  induction words using List.reverseRecOn generalizing b with
  | nil =>
    obtain rfl := Except.ok.inj h
    simp [empty, Pool.empty, beginnings]
  | append_singleton words w ih =>
    have hasc := (ascending_of_foldlM h).2
    rw [List.foldlM_append] at h
    obtain ⟨b₀, hwords, h⟩ := bind_eq_ok.1 h
    obtain ⟨b₁, hadd, h⟩ := bind_eq_ok.1 (List.foldlM_cons.symm.trans h)
    obtain rfl : b₁ = b := Except.ok.inj h
    have hbuilt := built_of_foldlM hwords
    obtain ⟨hsequences, hstates, hcount⟩ := ih hwords
    -- The word opens a state for each of its proper beginnings that the last word has not, which no word before has either.
    obtain ⟨hsequences', hstates', hcount'⟩ := add_tally hbuilt hadd hstates
    obtain ⟨hw, hprevious⟩ := refuse?_eq_none.1 (add_eq_ok hadd).1
    obtain ⟨common, c, rest, hparting⟩ := exists_parting hw hprevious
    rw [hbuilt.previous_eq] at hparting
    have hbeginnings := ncard_beginnings_concat hasc hparting
    have hdrop := congrArg List.length hparting.drop_eq
    rw [hparting.common_eq] at hcount'
    rw [List.length_drop, List.length_cons] at hdrop
    refine ⟨by rw [hsequences', hsequences, List.length_append, List.length_singleton], hstates', ?_⟩
    rw [hbeginnings, List.getLast?_append, List.getLast?_singleton, Option.some_or, Option.getD_some]
    omega

/-- Words in ascending order are added one by one, unless their states fill the address space. However many have been
added, the builder tells how many they are, and the size of what it has stored; and all they properly begin with is
accounted for, each beginning by one state stored, by one found again, or by one of the open states along the last word. -/
theorem info_of_words {words : List Word} (hnonempty : ∀ w ∈ words, w ≠ []) (hasc : Ascending words) :
    (∃ b, words.foldlM add empty = .ok b ∧ b.Accounted words) ∨
      words.foldlM add empty = .error .capacityExceeded ∧ 2 ^ 32 ≤ Record.size * (1 + (neededArcs words).ncard) := by
  rcases (built_empty words).foldlM_cases hasc hnonempty rfl with ⟨b, hok, hbuilt⟩ | herror
  · obtain ⟨hsequences, hstates, hcount⟩ := tally_of_foldlM hok
    have hpool := hbuilt.opened.pool
    have hbytes : b.buffer.size = Frozen.behind b.pool.states := Pool.size_toBytes b.pool 0
    refine .inl ⟨b, hok, hsequences, hstates, hpool.arcs_eq, hpool.size_eq.trans hbytes.symm, rfl, ?_⟩
    exact (congrArg (· + b.pool.hits + _) hstates).trans hcount
  · exact .inr herror

/-- The end that the first two words share is found again when the second one is frozen. -/
theorem info_of_words_shared : ∃ b, [[97, 99], [98, 99], [99, 100]].foldlM add empty = .ok b ∧
    b.info = ⟨3, 1, 1, 1, 12⟩ ∧ (beginnings [[97, 99], [98, 99], [99, 100]]).ncard = 4 := by
  have hrun : ([[97, 99], [98, 99], [99, 100]].foldlM add empty).toOption.map info = some ⟨3, 1, 1, 1, 12⟩ := by cbv
  have hnonempty : ∀ w ∈ ([[97, 99], [98, 99], [99, 100]] : List Word), w ≠ [] := by decide
  rcases info_of_words hnonempty (by decide) with ⟨b, hb, h⟩ | ⟨herror, -⟩
  · have hinfo : b.info = ⟨3, 1, 1, 1, 12⟩ := by simpa [hb, Except.toOption] using hrun
    refine ⟨b, hb, hinfo, ?_⟩
    rw [← h.beginnings_eq, hinfo]
    rfl
  · simp [herror, Except.toOption] at hrun

end Builder

end WordAutomata
