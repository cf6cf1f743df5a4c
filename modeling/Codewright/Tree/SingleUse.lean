import Codewright.Tree

/-!
# Single uses

A local that is stored once and read once, by the next statement and before anything else in it, is
not needed: the read is replaced by what was stored. The local stays in the table with its counts at
zero.
-/

namespace Codewright

namespace Tree

/-- The local that a statement stores into, if it is stored and read only once. -/
def singleUse? (locals : Locals) (t : Tree) : Option LocalId :=
  t.store.filter fun x =>
    match locals[x]? with
    | some l => !l.isParameter && l.assignments == 1 && l.uses == 1
    | none => false

mutual

/-- The local that is loaded before all else in a node. A loop may run again and is never
searched. -/
def firstLoad? : Tree → Option LocalId
  | .load _ x => some x
  | .binary _ _ left _ => firstLoad? left
  | .unary _ _ operand => firstLoad? operand
  | .toReal _ operand => firstLoad? operand
  | .call _ _ args => firstLoadOf? args
  | .print _ args => firstLoadOf? args
  | .retValue _ value => firstLoad? value
  | .ifThen _ condition _ => firstLoad? condition
  | .ifElse _ condition _ _ => firstLoad? condition
  | .seq _ body => firstLoadOf? body
  | .const _ _ | .failFast _ | .loop _ _ _ | .ret _ => none

/-- The local that is loaded before all else in nodes that are evaluated in order. -/
def firstLoadOf? : List Tree → Option LocalId
  | [] => none
  | t :: _ => firstLoad? t

end

mutual

/-- Puts a value in the place of the first load. The value stores where the load did. -/
def replaceFirstLoad (value : Tree) : Tree → Tree
  | .load tag _ => value.withStore tag.store
  | .binary tag op left right => .binary tag op (replaceFirstLoad value left) right
  | .unary tag op operand => .unary tag op (replaceFirstLoad value operand)
  | .toReal tag operand => .toReal tag (replaceFirstLoad value operand)
  | .call tag callee args => .call tag callee (replaceFirstLoadOf value args)
  | .print tag args => .print tag (replaceFirstLoadOf value args)
  | .retValue tag inner => .retValue tag (replaceFirstLoad value inner)
  | .ifThen tag condition yes => .ifThen tag (replaceFirstLoad value condition) yes
  | .ifElse tag condition yes no => .ifElse tag (replaceFirstLoad value condition) yes no
  | .seq tag body => .seq tag (replaceFirstLoadOf value body)
  | .const tag v => .const tag v
  | .failFast tag => .failFast tag
  | .loop tag condition body => .loop tag condition body
  | .ret tag => .ret tag

/-- Puts a value in the place of the first load of the first node. -/
def replaceFirstLoadOf (value : Tree) : List Tree → List Tree
  | [] => []
  | t :: rest => replaceFirstLoad value t :: rest

end

/-- The locals after one store and one load of a local are gone. -/
def forget (locals : Locals) (x : LocalId) : Locals :=
  locals.modify x fun l => { l with assignments := l.assignments - 1, uses := l.uses - 1 }

/-- The locals while single uses are removed, and how many have been. -/
structure Removal where
  locals : Locals
  removed : Nat := 0

/-- Puts a statement after the reversed statements `before`, and takes in as many of those as are
stored only for it. Taking in one statement may bring the one before it into place. -/
def absorb (state : Removal) (statement : Tree) (before : List Tree) : List Tree × Removal :=
  match before with
  | [] => ([statement], state)
  | previous :: earlier =>
    match singleUse? state.locals previous with
    | none => (statement :: before, state)
    | some x =>
      if firstLoad? statement = some x then
        absorb { locals := forget state.locals x, removed := state.removed + 1 }
          (replaceFirstLoad (previous.withStore none) statement) earlier
      else (statement :: before, state)

mutual

/-- Removes single uses in the sequences of a statement. -/
def removeSingleUses (state : Removal) : Tree → Tree × Removal
  | .seq tag body =>
    let (body, state) := removeInSequence state [] body
    (.seq tag body, state)
  | .ifThen tag condition yes =>
    let (yes, state) := removeSingleUses state yes
    (.ifThen tag condition yes, state)
  | .ifElse tag condition yes no =>
    let (yes, state) := removeSingleUses state yes
    let (no, state) := removeSingleUses state no
    (.ifElse tag condition yes no, state)
  | .loop tag condition body =>
    let (body, state) := removeSingleUses state body
    (.loop tag condition body, state)
  | .const tag value => (.const tag value, state)
  | .load tag x => (.load tag x, state)
  | .call tag callee args => (.call tag callee args, state)
  | .binary tag op left right => (.binary tag op left right, state)
  | .unary tag op operand => (.unary tag op operand, state)
  | .ret tag => (.ret tag, state)
  | .retValue tag value => (.retValue tag value, state)
  | .print tag args => (.print tag args, state)
  | .failFast tag => (.failFast tag, state)
  | .toReal tag operand => (.toReal tag operand, state)

/-- Removes single uses in statements after the reversed ones `done`. -/
def removeInSequence (state : Removal) (done : List Tree) : List Tree → List Tree × Removal
  | [] => (done.reverse, state)
  | t :: rest =>
    let (t, state) := removeSingleUses state t
    let (done, state) := absorb state t done
    removeInSequence state done rest

end

end Tree

/-- Removes the single uses of a routine, and how many locals went. -/
def Routine.removeSingleUses (r : Routine) : Routine × Nat :=
  let (body, state) := r.body.removeSingleUses { locals := r.locals }
  ({ r with body, locals := state.locals }, state.removed)

end Codewright
