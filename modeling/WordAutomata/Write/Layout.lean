import WordAutomata.Walk
import WordAutomata.Write.Script
import Std.Data.TreeMap.Lemmas

namespace WordAutomata

open Std (TreeMap TreeSet)

/-- An arc whose target is given by its place in the order of writing. -/
structure PlacedArc where
  label : UInt8
  isFinal : Bool
  isLast : Bool
  target : Option Nat
deriving DecidableEq

structure PlacedRow where
  /-- The right-language count. -/
  count : Nat
  arcs : List PlacedArc
deriving DecidableEq

/-- An automaton ready to be written. -/
structure Plan where
  /-- The place of the root. -/
  root : Option Nat
  rows : List PlacedRow

/-- The place of each state in an order. -/
def places (order : List State) : TreeMap State Nat := TreeMap.ofList order.zipIdx

/-- A list of arcs, the last one marked as such. -/
def placeArcs (place : State → Nat) : List Transition → List PlacedArc
  | [] => []
  | [t] => [⟨t.label, t.isFinal, true, t.target.map place⟩]
  | t :: u :: ts => ⟨t.label, t.isFinal, false, t.target.map place⟩ :: placeArcs place (u :: ts)

/-- The plan for an order of the reachable states. -/
def Graph.plan (G : Graph) (count : State → Nat) (order : List State) : Plan :=
  let places := places order
  let nowhere := order.length
  let place s := places.getD s nowhere
  ⟨G.root.map place, order.map fun s => ⟨count s, placeArcs place (G.row s)⟩⟩

/-- The order of writing in which some states come first. The rest follows depth first, from the root and then from the
states moved. -/
def Graph.linearize (G : Graph) (moved : List State) : List State :=
  let moved := moved.eraseDups
  let stack := G.root.toList ++ (moved.flatMap G.targets).reverse
  moved ++ (explore (fun s => .ok (G.targets s)) .one none (TreeSet.ofList moved) stack).items

/-- How a layout writes states, given the address of each place, and how many bytes it counts for them. -/
structure RowFormat where
  /-- The address of a place that no pass has reached yet. -/
  unplaced : Nat
  /-- What comes before the first state. -/
  opening : (address : Nat → Nat) → List UInt8
  openingSize : (address : Nat → Nat) → Nat
  row : (address : Nat → Nat) → (place : Nat) → PlacedRow → List UInt8
  rowSize : (address : Nat → Nat) → (place : Nat) → PlacedRow → Nat
  /-- Whether all numbers of a row have room. -/
  fits : (address : Nat → Nat) → (place : Nat) → PlacedRow → Bool
  openingSize_eq : ∀ address, openingSize address = (opening address).length
  rowSize_eq : ∀ address place r, rowSize address place r = (row address place r).length

/-- Bytes counted for the arcs of a state, one after the other. -/
def arcsSize (size : PlacedArc → Nat) (arcs : List PlacedArc) : Nat := arcs.foldl (fun n a => n + size a) 0

theorem arcsSize_cons (size : PlacedArc → Nat) (a : PlacedArc) (arcs : List PlacedArc) :
    arcsSize size (a :: arcs) = size a + arcsSize size arcs := by
  have hfrom (n : Nat) : arcs.foldl (fun n a => n + size a) n = n + arcsSize size arcs := by
    rw [arcsSize]
    induction arcs generalizing n with
    | nil => rfl
    | cons b arcs ih => rw [List.foldl_cons, List.foldl_cons, ih, ih (0 + size b), Nat.zero_add, Nat.add_assoc]
  rw [arcsSize, List.foldl_cons, Nat.zero_add, hfrom]

theorem arcsSize_eq_length {size : PlacedArc → Nat} {bytes : PlacedArc → List UInt8} (h : ∀ a, (bytes a).length = size a)
    (arcs : List PlacedArc) : arcsSize size arcs = (arcs.flatMap bytes).length := by
  induction arcs with
  | nil => rfl
  | cons a arcs ih => rw [arcsSize_cons, List.flatMap_cons, List.length_append, h, ih]

theorem size_append (body : Bytes) (bs : List UInt8) : (body ++ bs).size = body.size + bs.length := by
  rw [← Array.length_toList, Array.toList_appendList, List.length_append, Array.length_toList]

/-- The outcome of writing states. -/
structure Pass where
  offsets : Array Nat
  body : Bytes
  /-- Bytes counted, which is what the offsets are taken from. -/
  size : Nat
  fits : Bool
  size_eq : size = body.size

/-- The first state that is not where the layout put it. -/
def Pass.moved? (p : Pass) (laidOut : Array Nat) : Option Inconsistency :=
  ((p.offsets.zip laidOut).zipIdx.find? fun x => x.1.1 ≠ x.1.2).map fun ((written, expected), place) =>
    .moved place written expected

/-- The address of a place, given the offsets that a pass has found so far and those of the pass before. -/
def RowFormat.address (F : RowFormat) (before found : Array Nat) (place : Nat) : Nat :=
  match found[place]? with
  | some offset => offset
  | none => before[place]?.getD F.unplaced

/-- Writes a state behind those written before. It knows its own offset. -/
def RowFormat.step (F : RowFormat) (before : Array Nat) : Pass → PlacedRow → Pass
  | ⟨offsets, body, size, fits, size_eq⟩, row =>
    let place := offsets.size
    let offsets := offsets.push size
    let bytes := F.row (F.address before offsets) place row
    let counted := F.rowSize (F.address before offsets) place row
    let fits := fits && F.fits (F.address before offsets) place row
    ⟨offsets, body ++ bytes, size + counted, fits, by
      rw [size_append, size_eq, Nat.add_right_inj]
      exact F.rowSize_eq _ _ _⟩

/-- Writes what comes before the first state. -/
def RowFormat.start (F : RowFormat) (before : Array Nat) : Pass where
  offsets := #[]
  body := (F.opening (F.address before #[])).toArray
  size := F.openingSize (F.address before #[])
  fits := true
  size_eq := by rw [List.size_toArray, F.openingSize_eq]

/-- Writes all states, given the offsets that the pass before found. -/
def RowFormat.pass (F : RowFormat) (rows : List PlacedRow) (before : Array Nat) : Pass :=
  rows.foldl (F.step before) (F.start before)

/-- How a search for offsets ends. -/
inductive Settlement
  /-- A pass repeated the offsets it was given. -/
  | settled (p : Pass)
  /-- A number had no room; the offsets are those found so far. -/
  | tooNarrow (offsets : Array Nat)
  | unsettled

/-- Passes that a search may take. -/
def maxPasses : Nat := 64

/-- Passes until the offsets stay the same, at most `passes` of them. How long a state is may depend on the addresses it
holds, so each pass writes all states with the offsets known so far. -/
def RowFormat.settle (F : RowFormat) (rows : List PlacedRow) : (passes : Nat) → (before : Array Nat) → Settlement
  | 0, _ => .unsettled
  | passes + 1, before =>
    let p := F.pass rows before
    if !p.fits then .tooNarrow p.offsets
    else if p.offsets = before then .settled p
    else F.settle rows passes p.offsets

end WordAutomata
