import WordAutomata.Proofs.Walk

namespace WordAutomata

open Std (TreeSet)

variable {σ α β : Type}

theorem andM_eq (x y : Visit σ Bool) : (x <&&> y) = x >>= fun b => if b then y else pure false := by
  show x >>= _ = x >>= _
  congr 1
  funext b
  cases b <;> rfl

theorem visit_ext {x y : Visit σ α} (h : ∀ before, x.run.run before = y.run.run before) : x = y := funext h

theorem run_andM (x y : Visit σ Bool) (before : σ) : (x <&&> y).run.run before =
    match x.run.run before with
    | (.ok true, after) => y.run.run after
    | (.ok false, after) => (.ok false, after)
    | (.error f, after) => (.error f, after) := by
  rw [andM_eq, ExceptT.run_bind, StateT.run_bind]
  rcases x.run.run before with ⟨_ | b, after⟩
  · rfl
  · cases b <;> rfl

theorem andM_assoc (x y z : Visit σ Bool) : ((x <&&> y) <&&> z) = (x <&&> (y <&&> z)) := by
  simp only [andM_eq, bind_assoc]
  congr 1
  funext b
  cases b <;> simp

theorem true_andM (y : Visit σ Bool) : (pure true <&&> y) = y := by
  simp [andM_eq]

theorem andM_true (x : Visit σ Bool) : (x <&&> pure true) = x := by
  have hself (b : Bool) : (if b then pure true else pure false : Visit σ Bool) = pure b := by cases b <;> rfl
  simp [andM_eq, hself]

theorem throw_andM (f : Fault) (y : Visit σ Bool) : (throw f <&&> y) = throw f := by
  rw [andM_eq]
  rfl

section

variable {visitor : α → Visit σ Bool}

theorem allM_cons (a : α) (as : List α) : (a :: as).allM visitor = (visitor a <&&> as.allM visitor) := by
  rw [List.allM_cons, andM_eq]

theorem allM_append (as bs : List α) : (as ++ bs).allM visitor = (as.allM visitor <&&> bs.allM visitor) := by
  induction as with
  | nil => exact (true_andM _).symm
  | cons a as ih => rw [List.cons_append, allM_cons, allM_cons, andM_assoc, ih]

theorem allM_map (g : β → α) (bs : List β) : (bs.map g).allM visitor = bs.allM fun b => visitor (g b) := by
  induction bs with
  | nil => rfl
  | cons b bs ih => rw [List.map_cons, allM_cons, allM_cons, ih]

namespace Readout

theorem andThen_none (r : Readout α) (next : Option Nat → Readout α) : r.andThen none next = r.append (next none) := by
  obtain ⟨items, fault⟩ := r
  cases fault <;> rfl

theorem allM_items (as : List α) : (⟨as, none⟩ : Readout α).allM visitor = as.allM visitor := andM_true _

theorem allM_append (r next : Readout α) : (r.append next).allM visitor = (r.allM visitor <&&> next.allM visitor) := by
  obtain ⟨items, fault⟩ := r
  cases fault with
  | none => rw [allM_items, append, allM, allM, WordAutomata.allM_append, andM_assoc]
  | some f => rw [append, allM, andM_assoc, throw_andM]

theorem allM_ofRead (x : Read α) : (ofRead x).allM visitor = liftM x >>= visitor := by
  cases x with
  | error f => rfl
  | ok a =>
    have hone : (one a).allM visitor = visitor a := by
      rw [one, allM_items, allM_cons]
      exact andM_true _
    exact hone

theorem allM_ofRead_map (g : β → α) (x : Read β) : (ofRead (g <$> x)).allM visitor = (do visitor (g (← x))) := by
  rw [allM_ofRead]
  cases x <;> rfl

theorem allM_concat (rs : List (Readout α)) : (concat rs).allM visitor = rs.allM (·.allM visitor) := by
  induction rs with
  | nil => exact allM_items []
  | cons r rs ih =>
    rw [allM_cons, ← ih]
    exact allM_append r (concat rs)

end Readout

variable {successors : State → Read (List State)} {visitState : State → Visit σ Bool} {visit : State → Readout α}

/-- Whatever ends the walk, a fault, the visitor or its last state, comes at the same item in both. -/
theorem visitFrom_eq (h : ∀ s, visitState s = (visit s).allM visitor) (visited : TreeSet State) (stack : List State) :
    visitFrom successors visitState visited stack = (explore successors visit none visited stack).allM visitor := by
  fun_induction visitFrom successors visitState visited stack with
  | case1 =>
    rw [explore]
    rfl
  | case2 visited s stack hs ih => rw [explore, dif_pos hs, ih]
  | case3 visited s stack hs hsize ih =>
    rw [explore, dif_neg hs, h s, Readout.andThen_none, Readout.allM_append]
    cases hok : successors s with
    | error f => rfl
    | ok ts => exact congrArg ((visit s).allM visitor <&&> ·) (ih ts)

theorem Automaton.visit_eq {A : Automaton} (h : ∀ s, visitState s = (visit s).allM visitor) :
    A.visit visitState = (A.collect visit none).allM visitor := by
  rw [Automaton.visit, Automaton.collect]
  cases A.root with
  | error f => rfl
  | ok root =>
    cases root with
    | none => rfl
    | some r => exact visitFrom_eq h ∅ [r]

end

end WordAutomata
