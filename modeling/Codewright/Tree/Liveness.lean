import Codewright.Tree

/-!
# Live intervals

The points of an evaluation are numbered from 0 in the order of the leaves and operators. A local is
live from the first to the last point that touches it: a load of it, a store into it, and the
operator that consumes a node storing into it. What is live when a loop begins and is touched in the
loop stays live to the loop's end, since the next round may need it. Parameters are live from before
the first point.
-/

namespace Codewright

/-- The interval of a local that is touched at a point once more. -/
def Local.touched (l : Local) (point : Int) : Local :=
  { l with
    interval := some (match l.interval with
      | none => ⟨point, point⟩
      | some i => ⟨i.first, max i.last point⟩) }

/-- The interval of a local after a loop that covers the points from `first` to `last`. -/
def Local.keptThrough (l : Local) (first last : Int) : Local :=
  { l with
    interval := l.interval.map fun i =>
      if i.first < first ∧ first ≤ i.last then { i with last := max i.last last } else i }

/-- The next point and the locals with their intervals up to it. -/
structure Walk where
  position : Nat
  locals : Locals

namespace Walk

/-- One point, which touches some locals. -/
def step (w : Walk) (touched : List LocalId) : Walk :=
  { position := w.position + 1
    locals := touched.foldl (fun ls x => ls.modify x (·.touched w.position)) w.locals }

/-- The end of a loop that began at `start`. An empty loop keeps nothing alive. -/
def endLoop (w : Walk) (start : Nat) : Walk :=
  if w.position ≤ start then w
  else { w with locals := w.locals.map (·.keptThrough start (w.position - 1)) }

mutual

def node (w : Walk) : Tree → Walk
  | .const tag _ => w.step tag.store.toList
  | .load tag x => w.step (x :: tag.store.toList)
  | .binary tag _ left right =>
    ((w.node left).node right).step
      (left.store.toList ++ right.store.toList ++ tag.store.toList)
  | .unary tag _ operand => (w.node operand).step (operand.store.toList ++ tag.store.toList)
  | .toReal tag operand => (w.node operand).step (operand.store.toList ++ tag.store.toList)
  | .call tag _ args => (w.nodes args).step (args.filterMap Tree.store ++ tag.store.toList)
  | .print tag args => (w.nodes args).step (args.filterMap Tree.store ++ tag.store.toList)
  | .retValue _ value => w.node value
  | .seq _ body => w.nodes body
  | .ifThen _ condition yes => (w.node condition).node yes
  | .ifElse _ condition yes no => ((w.node condition).node yes).node no
  | .loop _ condition body =>
    let start := w.position
    ((w.node condition).node body).endLoop start
  | .ret _ => w
  | .failFast _ => w

def nodes (w : Walk) : List Tree → Walk
  | [] => w
  | t :: rest => (w.node t).nodes rest

end

end Walk

namespace Routine

/-- The routine with the intervals of its parameters only, and no storage. -/
def clearIntervals (r : Routine) : Routine :=
  { r with
    locals := r.reset.locals.map fun l =>
      if l.isParameter then { l with interval := some ⟨-1, -1⟩ } else l }

/-- Computes the interval of every local, whatever was known before. -/
def computeIntervals (r : Routine) : Routine :=
  { r with
    locals := (Walk.node { position := 0, locals := r.clearIntervals.locals } r.body).locals }

end Routine

end Codewright
