import Codewright.Proofs.Locals
import Codewright.Proofs.Scoping
import Codewright.Tree.Liveness

/-!
# Intervals are exact

The walk through a tree numbers the points of its evaluation. A local is live from its first touch
to the last of its touches, or longer: to the last point of a loop that begins after its first touch
and touches it. The walk learns of a loop only at the loop's end, and then looks at the interval
that it has so far and not at the touches. `Exact` ties the interval to the touches and the loops
that lie behind the walk; a point and the end of a loop keep it, and so a whole walk does.
-/

namespace Codewright

namespace Tree

/-! ## Points -/

mutual

def points : Tree → Nat
  | .const _ _ | .load _ _ => 1
  | .failFast _ | .ret _ => 0
  | .call _ _ args | .print _ args => pointsAll args + 1
  | .binary _ _ left right => points left + points right + 1
  | .unary _ _ operand | .toReal _ operand => points operand + 1
  | .retValue _ value => points value
  | .seq _ body => pointsAll body
  | .ifThen _ condition yes => points condition + points yes
  | .ifElse _ condition yes no => points condition + points yes + points no
  | .loop _ condition body => points condition + points body

def pointsAll : List Tree → Nat
  | [] => 0
  | t :: rest => points t + pointsAll rest

end

/-! ## Touches and loops of a tree -/

/-- Node `n` begins at point `b` when trees that follow each other begin at a point. -/
inductive Occurs (n : Tree) (b : Nat) : List Tree → Nat → Prop
  | here {rest : List Tree} : Occurs n b (n :: rest) b
  | part {t : Tree} {rest : List Tree} {p : Nat} (h : Occurs n b t.parts p) :
    Occurs n b (t :: rest) p
  | next {t : Tree} {rest : List Tree} {p : Nat} (h : Occurs n b rest (p + t.points)) :
    Occurs n b (t :: rest) p

/-- Leaves and operators have a point of their own, behind those of their operands. Statements have
none, so a store that one of them carried would be touched only by an operator that consumes it. -/
def hasPoint (t : Tree) : Bool := t.isLeaf || t.operator?.isSome

def isLoop : Tree → Bool
  | .loop _ _ _ => true
  | _ => false

/-- A node touches the local that it loads, the one that it stores into and those that its operands
are stored in. -/
def Touches (t : Tree) (x : LocalId) : Prop :=
  (∃ tag, t = .load tag x) ∨ t.store = some x ∨ ∃ a ∈ t.parts, a.store = some x

/-- What the nodes of some trees have, depending on where they begin. -/
def found {α : Type} (has : Tree → Nat → Set α) (ts : List Tree) (p : Nat) : Set α :=
  {y | ∃ n b, Occurs n b ts p ∧ y ∈ has n b}

/-- The point at which a node touches a local. -/
def ownTouch (x : LocalId) (n : Tree) (b : Nat) : Set Int :=
  {q | n.hasPoint ∧ n.Touches x ∧ q = b + pointsAll n.parts}

/-- The points of a loop, from the first to the last. -/
def ownLoop (n : Tree) (b : Nat) : Set Interval :=
  {j | n.isLoop ∧ j = ⟨b, b + n.points - 1⟩}

section

variable {n t : Tree} {f : Operator} {ts rest : List Tree} {b p : Nat} {x : LocalId}

theorem induction_forest {P : List Tree → Prop} (nil : P [])
    (cons : ∀ t rest, P t.parts → P rest → P (t :: rest)) (ts : List Tree) : P ts := by
  have hlist : ∀ ts : List Tree, (∀ t ∈ ts, P t.parts) → P ts := by
    intro ts h
    induction ts with
    | nil => exact nil
    | cons t rest ih => exact cons t rest (h t (by simp)) (ih fun u hu => h u (by simp [hu]))
  have hparts : ∀ t : Tree, P t.parts := fun t => by
    induction t using induction_parts with
    | h t ih => exact hlist _ ih
  exact hlist ts fun t _ => hparts t

theorem points_eq (t : Tree) : t.points = pointsAll t.parts + if t.hasPoint then 1 else 0 := by
  cases t <;> simp [points, pointsAll, parts, hasPoint, isLeaf, operator?, Nat.add_assoc]

theorem points_operator (h : t.operator? = some f) : t.points = pointsAll f.operands + 1 := by
  rw [points_eq, parts_operator h, hasPoint, h, Option.isSome_some, Bool.or_true, if_pos rfl]

theorem touches_operator (h : t.operator? = some f) :
    t.Touches x ↔ x ∈ f.operands.filterMap store ++ t.store.toList := by
  have hload : ∀ tag, t ≠ .load tag x := by
    rintro tag rfl
    cases h
  simp [Touches, hload, parts_operator h, or_comm]

theorem Touches.mentions (h : t.Touches x) : x ∈ t.mentions := by
  rw [mem_mentions_iff]
  rcases h with h | h | ⟨a, ha, h⟩
  · exact .inr (.inl h)
  · exact .inr (.inr h)
  · exact .inl (List.mem_flatMap.mpr ⟨a, ha, mem_mentions.mpr (.inr (mem_stores_of_store h))⟩)

theorem Occurs.le (h : Occurs n b ts p) : p ≤ b ∧ b + n.points ≤ p + pointsAll ts := by
  induction h with
  | here => exact ⟨le_refl _, by rw [pointsAll]; omega⟩
  | @part t rest p _ ih =>
    have := points_eq t
    exact ⟨ih.1, by rw [pointsAll]; omega⟩
  | next _ ih => exact ⟨by omega, by rw [pointsAll]; omega⟩

theorem Occurs.mentions (h : Occurs n b ts p) : n.mentions ⊆ mentionsAll ts := by
  induction h with
  | here => exact List.subset_append_left _ _
  | part _ ih => exact fun x hx => List.mem_append_left _ (mem_mentions_iff.mpr (.inl (ih hx)))
  | next _ ih => exact fun x hx => List.mem_append_right _ (ih hx)

theorem Occurs.of_mem (h : n ∈ ts) (p : Nat) : ∃ b, Occurs n b ts p := by
  induction ts generalizing p with
  | nil => cases h
  | cons t rest ih =>
    rcases List.mem_cons.mp h with rfl | h
    · exact ⟨p, .here⟩
    · obtain ⟨b, hb⟩ := ih h (p + t.points)
      exact ⟨b, .next hb⟩

theorem found_nil {α : Type} (has : Tree → Nat → Set α) (p : Nat) : found has [] p = ∅ := by
  ext y
  constructor
  · rintro ⟨n, b, h, -⟩
    cases h
  · exact False.elim

theorem found_cons {α : Type} (has : Tree → Nat → Set α) (t : Tree) (rest : List Tree) (p : Nat) :
    found has (t :: rest) p = found has t.parts p ∪ has t p ∪ found has rest (p + t.points) := by
  ext y
  constructor
  · rintro ⟨n, b, h, hy⟩
    cases h with
    | here => exact .inl (.inr hy)
    | part h => exact .inl (.inl ⟨n, b, h, hy⟩)
    | next h => exact .inr ⟨n, b, h, hy⟩
  · rintro ((⟨n, b, h, hy⟩ | hy) | ⟨n, b, h, hy⟩)
    · exact ⟨n, b, .part h, hy⟩
    · exact ⟨t, p, .here, hy⟩
    · exact ⟨n, b, .next h, hy⟩

theorem mem_touches {q : Int} (h : q ∈ found (ownTouch x) ts p) :
    x ∈ mentionsAll ts ∧ p ≤ q ∧ q < p + pointsAll ts := by
  obtain ⟨n, b, hb, hpoint, hx, rfl⟩ := h
  have hle := hb.le
  rw [points_eq, if_pos hpoint] at hle
  exact ⟨hb.mentions hx.mentions, by omega, by omega⟩

theorem mem_loops {j : Interval} (h : j ∈ found ownLoop ts p) :
    p ≤ j.first ∧ j.last < p + pointsAll ts := by
  obtain ⟨n, b, hb, -, rfl⟩ := h
  have := hb.le
  exact ⟨by simp only; omega, by simp only; omega⟩

end

end Tree

/-! ## Steps of the walk -/

/-- An interval that a point is added to. -/
def Interval.reach (i : Option Interval) (point : Int) : Interval :=
  match i with
  | none => ⟨point, point⟩
  | some i => ⟨i.first, max i.last point⟩

theorem Interval.reach_reach (i : Option Interval) (point : Int) :
    reach (some (reach i point)) point = reach i point := by
  cases i <;> simp [reach]

theorem Local.interval_touched (l : Local) (point : Int) :
    (l.touched point).interval = some (.reach l.interval point) := by
  unfold Local.touched Interval.reach
  cases l.interval <;> rfl

namespace Walk

def interval (w : Walk) (x : LocalId) : Option Interval := intervalOf w.locals x

theorem interval_step (w : Walk) (xs : List LocalId) (x : LocalId) :
    (w.step xs).interval x =
      if x ∈ xs ∧ x < w.locals.size then some (.reach (w.interval x) w.position)
      else w.interval x := by
  obtain ⟨p, locals⟩ := w
  simp only [step, interval]
  induction xs generalizing locals with
  | nil => simp
  | cons y rest ih =>
    rw [List.foldl_cons, ih]
    simp only [intervalOf, Array.size_modify, Array.getElem?_modify, List.mem_cons]
    by_cases hxy : y = x
    · subst hxy
      cases hl : locals[y]? with
      | none =>
        have hn : ¬ y < locals.size := by simpa using hl
        simp [hn]
      | some l =>
        have hlt : y < locals.size := (Array.getElem?_eq_some_iff.mp hl).1
        by_cases hr : y ∈ rest <;>
          simp [hlt, hr, Local.interval_touched, Interval.reach_reach]
    · have hyx : ¬ x = y := fun h => hxy h.symm
      simp [hxy, hyx]

@[simp] theorem position_step (w : Walk) (xs : List LocalId) :
    (w.step xs).position = w.position + 1 := rfl

/-- A local without its interval. -/
def unmarked (w : Walk) (x : LocalId) : Option Local :=
  w.locals[x]?.map fun l => { l with interval := none }

theorem unmarked_step (w : Walk) (xs : List LocalId) (x : LocalId) :
    (w.step xs).unmarked x = w.unmarked x := by
  obtain ⟨p, locals⟩ := w
  simp only [step, unmarked]
  induction xs generalizing locals with
  | nil => rfl
  | cons y rest ih =>
    rw [List.foldl_cons, ih, Array.getElem?_modify]
    split
    · cases locals[x]? <;> rfl
    · rfl

theorem interval_endLoop (w : Walk) (start : Nat) (x : LocalId) :
    (w.endLoop start).interval x = (w.interval x).map fun i : Interval =>
      if start < w.position ∧ i.first < start ∧ start ≤ i.last then
        { i with last := max i.last (w.position - 1) } else i := by
  unfold endLoop
  split
  · next h => simp [Nat.not_lt.mpr h]
  · next h =>
    have h : start < w.position := by omega
    simp only [interval, intervalOf, Array.getElem?_map, h, true_and]
    cases w.locals[x]? <;> rfl

@[simp] theorem position_endLoop (w : Walk) (start : Nat) :
    (w.endLoop start).position = w.position := by
  unfold endLoop
  split <;> rfl

theorem unmarked_endLoop (w : Walk) (start : Nat) (x : LocalId) :
    (w.endLoop start).unmarked x = w.unmarked x := by
  unfold endLoop unmarked
  split
  · rfl
  · rw [Array.getElem?_map]
    cases w.locals[x]? <;> rfl

theorem filterMap_store_cons (t : Tree) (rest : List Tree) :
    (t :: rest).filterMap Tree.store = t.store.toList ++ rest.filterMap Tree.store := by
  cases h : t.store <;> simp [h]

theorem node_operator (w : Walk) {t : Tree} {f : Operator} (h : t.operator? = some f) :
    w.node t = (w.nodes f.operands).step (f.operands.filterMap Tree.store ++ t.store.toList) := by
  cases t <;> cases h <;> simp [node, nodes, filterMap_store_cons, Tree.tag, Tree.store]

/-- What a node does once its parts have been passed: it takes a point and touches there what it
touches, or it ends a loop, or neither. -/
theorem node_cases (w : Walk) (t : Tree) :
    (t.hasPoint ∧ ¬ t.isLoop ∧ ∃ xs, (∀ x, x ∈ xs ↔ t.Touches x) ∧
        w.node t = (w.nodes t.parts).step xs) ∨
      (¬ t.hasPoint ∧ t.isLoop ∧ w.node t = (w.nodes t.parts).endLoop w.position) ∨
      (¬ t.hasPoint ∧ ¬ t.isLoop ∧ w.node t = w.nodes t.parts) := by
  cases hf : t.operator? with
  | some f =>
    have hl : ¬ t.isLoop := by cases t <;> simp_all [Tree.isLoop, Tree.operator?]
    refine .inl ⟨by simp [Tree.hasPoint, hf], hl, _, fun x => (Tree.touches_operator hf).symm, ?_⟩
    rw [node_operator w hf, Tree.parts_operator hf]
  | none =>
    cases t with
    | const tag value =>
      refine .inl ⟨rfl, Bool.false_ne_true, _, fun x => ?_, rfl⟩
      simp [Tree.Touches, Tree.parts, Tree.store, Tree.tag]
    | load tag y =>
      refine .inl ⟨rfl, Bool.false_ne_true, _, fun x => ?_, rfl⟩
      simp [Tree.Touches, Tree.parts, Tree.store, Tree.tag, eq_comm]
    | call | print | binary | unary | toReal => cases hf
    | loop => exact .inr (.inl ⟨Bool.false_ne_true, rfl, rfl⟩)
    | failFast | ret | seq | ifThen | ifElse | retValue =>
      exact .inr (.inr ⟨Bool.false_ne_true, Bool.false_ne_true, rfl⟩)

/-- A walk takes the points of the trees and changes only intervals. -/
theorem passed (w : Walk) (ts : List Tree) :
    (w.nodes ts).position = w.position + Tree.pointsAll ts ∧
    ∀ x, (w.nodes ts).unmarked x = w.unmarked x := by
  induction ts using Tree.induction_forest generalizing w with
  | nil => exact ⟨rfl, fun _ => rfl⟩
  | cons t rest ihparts ihrest =>
    obtain ⟨hposition, hunmarked⟩ := ihparts w
    have hnode : (w.node t).position = w.position + t.points ∧
        ∀ x, (w.node t).unmarked x = w.unmarked x := by
      rw [Tree.points_eq]
      rcases w.node_cases t with ⟨h, -, xs, -, heq⟩ | ⟨h, -, heq⟩ | ⟨h, -, heq⟩
      · exact ⟨by simp [heq, h, hposition, Nat.add_assoc],
          fun x => by rw [heq, unmarked_step, hunmarked]⟩
      · exact ⟨by simp [heq, h, hposition], fun x => by rw [heq, unmarked_endLoop, hunmarked]⟩
      · exact ⟨by simp [heq, h, hposition], fun x => by rw [heq, hunmarked]⟩
    obtain ⟨hposition', hunmarked'⟩ := ihrest (w.node t)
    refine ⟨?_, fun x => (hunmarked' x).trans (hnode.2 x)⟩
    rw [nodes, hposition', hnode.1, Tree.pointsAll, Nat.add_assoc]

theorem passed_node (w : Walk) (t : Tree) : (w.node t).position = w.position + t.points ∧
    ∀ x, (w.node t).unmarked x = w.unmarked x := passed w [t]

theorem size_nodes (w : Walk) (ts : List Tree) : (w.nodes ts).locals.size = w.locals.size := by
  have hle : ∀ x, (w.nodes ts).locals.size ≤ x ↔ w.locals.size ≤ x := fun x => by
    rw [← Array.getElem?_eq_none_iff, ← Array.getElem?_eq_none_iff, ← Option.map_eq_none_iff,
      ← Option.map_eq_none_iff (x := w.locals[x]?)]
    exact Eq.congr_left ((w.passed ts).2 x)
  exact le_antisymm ((hle _).mpr (le_refl _)) ((hle _).mp (le_refl _))

end Walk

/-! ## Exact intervals -/

/-- The last points of the loops that begin after a point and contain a touch. -/
def loopEnds (touches : Set Int) (loops : Set Interval) (first : Int) : Set Int :=
  {e | ∃ j ∈ loops, e = j.last ∧ first < j.first ∧ ∃ q ∈ touches, j.first ≤ q ∧ q ≤ j.last}

/-- The interval that touches and loops ask for. -/
def Exact (touches : Set Int) (loops : Set Interval) : Option Interval → Prop
  | none => touches = ∅
  | some i => IsLeast touches i.first ∧
    IsGreatest (touches ∪ loopEnds touches loops i.first) i.last

namespace Exact

variable {touches : Set Int} {loops : Set Interval} {i : Option Interval} {p : Int}

theorem touched (h : Exact touches loops i) {q : Int} (hq : q ∈ touches) :
    ∃ k, i = some k ∧ k.first ≤ q ∧ q ≤ k.last := by
  cases i with
  | none => exact absurd hq (by simp [show touches = ∅ from h])
  | some i => exact ⟨i, rfl, h.1.2 hq, h.2.2 (.inl hq)⟩

theorem last_lt {i : Interval} (h : Exact touches loops (some i)) (ht : ∀ q ∈ touches, q < p)
    (hl : ∀ j ∈ loops, j.last < p) : i.last < p := by
  rcases h.2.1 with hq | ⟨j, hj, hq, -⟩
  · exact ht _ hq
  · rw [hq]
    exact hl j hj

/-- A touch behind all others is the last point. -/
theorem touch (h : Exact touches loops i) (ht : ∀ q ∈ touches, q < p)
    (hl : ∀ j ∈ loops, j.last < p) : Exact (touches ∪ {p}) loops (some (.reach i p)) := by
  have hlast : (Interval.reach i p).last = p := by
    cases i with
    | none => rfl
    | some i => exact max_eq_right (h.last_lt ht hl).le
  refine ⟨?_, .inl (.inr hlast), ?_⟩
  · cases i with
    | none =>
      have h : touches = ∅ := h
      simp [h, Interval.reach]
    | some i =>
      refine ⟨.inl h.1.1, ?_⟩
      rintro q (hq | rfl)
      · exact h.1.2 hq
      · exact (ht _ h.1.1).le
  · rw [hlast]
    rintro q ((hq | rfl) | ⟨j, hj, rfl, -⟩)
    · exact (ht q hq).le
    · exact le_refl _
    · exact (hl j hj).le

theorem loopEnds_insert (j : Interval) (first : Int) :
    loopEnds touches (loops ∪ {j}) first = loopEnds touches loops first ∪
      {e | e = j.last ∧ first < j.first ∧ ∃ q ∈ touches, j.first ≤ q ∧ q ≤ j.last} := by
  ext e
  constructor
  · rintro ⟨k, hk | rfl, h⟩
    · exact .inl ⟨k, hk, h⟩
    · exact .inr h
  · rintro (⟨k, hk, h⟩ | h)
    · exact ⟨k, .inl hk, h⟩
    · exact ⟨j, .inr rfl, h⟩

/-- Whether a loop that ends here touches the local can be told from the interval: an end in the
loop comes from a touch in it, or from a loop in it that has one. -/
theorem touched_iff {i : Interval} {s : Int} (h : Exact touches loops (some i))
    (ht : ∀ q ∈ touches, q < p) (hl : ∀ j ∈ loops, j.last < s ∨ s ≤ j.first) :
    s ≤ i.last ↔ ∃ q ∈ touches, s ≤ q ∧ q ≤ p - 1 := by
  constructor
  · intro hs
    rcases h.2.1 with hq | ⟨j, hj, hq, -, q, hq', hjq, -⟩
    · exact ⟨_, hq, hs, Int.le_sub_one_of_lt (ht _ hq)⟩
    · have := hl j hj
      exact ⟨q, hq', by omega, Int.le_sub_one_of_lt (ht q hq')⟩
  · rintro ⟨q, hq, hs, -⟩
    exact hs.trans (h.2.2 (.inl hq))

/-- The end of a loop from `s` on and before `p`, which lies around or behind every other loop. -/
theorem endLoop {s : Int} (h : Exact touches loops i) (ht : ∀ q ∈ touches, q < p)
    (hl : ∀ j ∈ loops, j.last < s ∨ s ≤ j.first) :
    Exact touches (loops ∪ {⟨s, p - 1⟩}) (i.map fun i : Interval =>
      if s < p ∧ i.first < s ∧ s ≤ i.last then { i with last := max i.last (p - 1) } else i) := by
  cases i with
  | none => exact h
  | some i =>
    have hiff := h.touched_iff ht hl
    rw [Option.map_some]
    split
    · next hc =>
      refine ⟨h.1, ?_⟩
      have hends : loopEnds touches (loops ∪ {⟨s, p - 1⟩}) i.first =
          loopEnds touches loops i.first ∪ {p - 1} := by
        rw [loopEnds_insert]
        congr 1
        ext e
        exact ⟨fun he => he.1, fun he => ⟨he, hc.2.1, hiff.mp hc.2.2⟩⟩
      simp only
      rw [hends, ← Set.union_assoc]
      exact h.2.union isGreatest_singleton
    · next hc =>
      refine ⟨h.1, ?_⟩
      have hends : loopEnds touches (loops ∪ {⟨s, p - 1⟩}) i.first = loopEnds touches loops
          i.first := by
        rw [loopEnds_insert, Set.union_eq_left]
        rintro e ⟨-, hf, hq⟩
        have hs := hiff.mpr hq
        obtain ⟨q, hq, hsq, -⟩ := hq
        have := ht q hq
        exact absurd ⟨by omega, hf, hs⟩ hc
      rw [hends]
      exact h.2

theorem eq_none_iff (h : Exact touches loops i) : i = none ↔ touches = ∅ := by
  cases i with
  | none => exact ⟨fun _ => h, fun _ => rfl⟩
  | some i =>
    refine ⟨fun hi => (by cases hi), fun ht => ?_⟩
    exact absurd h.1.1 (by simp [ht])

theorem eq_some_iff (h : Exact touches loops i) {k : Interval} :
    i = some k ↔ Exact touches loops (some k) := by
  constructor
  · rintro rfl
    exact h
  · intro hk
    cases i with
    | none => exact absurd hk.1.1 (by simp [show touches = ∅ from h])
    | some i =>
      obtain ⟨f, l⟩ := i
      obtain ⟨f', l'⟩ := k
      obtain rfl : f = f' := h.1.unique hk.1
      obtain rfl : l = l' := h.2.unique hk.2
      rfl

end Exact

/-- What loops mean for an interval. What lives into a loop lives through it, and what begins in a
loop ends in it unless it is touched after the loop. -/
def Looped (touches : Set Int) (loops : Set Interval) (i : Option Interval) : Prop :=
  ∀ k ∈ i, ∀ j ∈ loops, (k.first < j.first → j.first ≤ k.last → j.last ≤ k.last) ∧
    (j.first ≤ k.first → k.first ≤ j.last → k.last ≤ j.last ∨ ∃ q ∈ touches, j.last < q)

namespace Looped

variable {touches : Set Int} {loops : Set Interval} {i : Option Interval} {p s : Int}

theorem touch (hl : ∀ j ∈ loops, j.last < p) :
    Looped (touches ∪ {p}) loops (some (.reach i p)) := by
  rintro k ⟨⟩ j hj
  exact ⟨fun _ _ => (hl j hj).le.trans (by cases i <;> simp [Interval.reach]),
    fun _ _ => .inr ⟨p, .inr rfl, hl j hj⟩⟩

theorem endLoop (h : Looped touches loops i) (hi : ∀ k ∈ i, k.last < p)
    (hlt : ∀ j ∈ loops, j.last < p) (hl : ∀ j ∈ loops, j.last < s ∨ s ≤ j.first) :
    Looped touches (loops ∪ {⟨s, p - 1⟩}) (i.map fun i : Interval =>
      if s < p ∧ i.first < s ∧ s ≤ i.last then { i with last := max i.last (p - 1) } else i) := by
  cases i with
  | none => rintro k ⟨⟩
  | some i =>
    have hip := hi i rfl
    rintro k ⟨⟩ j (hj | rfl)
    · obtain ⟨hcarried, henclosed⟩ := h i rfl j hj
      have hjp := hlt j hj
      have hjs := hl j hj
      dsimp only
      split
      · refine ⟨fun _ _ => by simp only; omega, fun hf hle => ?_⟩
        simp only at hf hle
        exact .inr ((henclosed hf hle).resolve_left (by omega))
      · exact ⟨hcarried, henclosed⟩
    · dsimp only
      split
      · exact ⟨fun _ _ => le_max_right _ _, fun hf _ => by simp only at hf; omega⟩
      · exact ⟨fun _ _ => by omega, fun _ _ => .inl (by omega)⟩

end Looped

/-! ## The walk -/

namespace Walk

variable {w : Walk} {x : LocalId} {t : Tree} {touches : Set Int} {loops : Set Interval}

/-- The interval of a local is exact for touches and loops that lie behind the walk. -/
structure Tells (w : Walk) (x : LocalId) (touches : Set Int) (loops : Set Interval) : Prop where
  touches_lt : ∀ q ∈ touches, q < w.position
  loops_lt : ∀ j ∈ loops, j.last < w.position
  exact : Exact touches loops (w.interval x)
  looped : Looped touches loops (w.interval x)

theorem Tells.step (h : w.Tells x touches loops) (hx : x < w.locals.size) (xs : List LocalId) :
    (w.step xs).Tells x (touches ∪ {q : Int | x ∈ xs ∧ q = w.position}) loops := by
  refine ⟨?_, fun j hj => ?_, ?_, ?_⟩
  · rintro q (hq | ⟨-, rfl⟩)
    · have := h.touches_lt q hq
      rw [position_step]
      omega
    · simp
  · have := h.loops_lt j hj
    rw [position_step]
    omega
  all_goals
    rw [interval_step]
    by_cases hmem : x ∈ xs
  · simpa [hmem, hx] using h.exact.touch h.touches_lt h.loops_lt
  · simpa [hmem] using h.exact
  · simpa [hmem, hx] using Looped.touch h.loops_lt
  · simpa [hmem] using h.looped

theorem Tells.endLoop (h : w.Tells x touches loops) {s : Nat}
    (hl : ∀ j ∈ loops, j.last < s ∨ s ≤ j.first) :
    (w.endLoop s).Tells x touches (loops ∪ {⟨s, w.position - 1⟩}) := by
  refine ⟨?_, ?_, ?_, ?_⟩
  · rw [position_endLoop]
    exact h.touches_lt
  · rw [position_endLoop]
    rintro j (hj | rfl)
    · exact h.loops_lt j hj
    · simp
  all_goals rw [interval_endLoop]
  · simpa using h.exact.endLoop h.touches_lt hl
  · have hlt : ∀ i ∈ w.interval x, i.last < w.position := fun i hi => by
      have hexact := h.exact
      rw [hi] at hexact
      exact hexact.last_lt h.touches_lt h.loops_lt
    simpa using h.looped.endLoop hlt h.loops_lt hl

/-- What a node does once its parts have been passed. -/
theorem Tells.node (hx : x < w.locals.size) (hbefore : ∀ j ∈ loops, j.last < w.position)
    (h : (w.nodes t.parts).Tells x (touches ∪ Tree.found (Tree.ownTouch x) t.parts w.position)
      (loops ∪ Tree.found Tree.ownLoop t.parts w.position)) :
    (w.node t).Tells x
      (touches ∪ Tree.found (Tree.ownTouch x) t.parts w.position ∪ Tree.ownTouch x t w.position)
      (loops ∪ Tree.found Tree.ownLoop t.parts w.position ∪ Tree.ownLoop t w.position) := by
  have hposition := (w.passed t.parts).1
  rcases w.node_cases t with ⟨hp, hl, xs, hxs, hnode⟩ | ⟨hp, hl, hnode⟩ | ⟨hp, hl, hnode⟩
  · have htouch : Tree.ownTouch x t w.position =
        {q : Int | x ∈ xs ∧ q = (w.nodes t.parts).position} := by
      simp [Tree.ownTouch, hp, hxs, hposition]
    rw [hnode, htouch, show Tree.ownLoop t w.position =
      ∅ by simp [Tree.ownLoop, hl], Set.union_empty]
    exact h.step (by rwa [size_nodes]) xs
  · have hloop : Tree.ownLoop t w.position = {⟨w.position, (w.nodes t.parts).position - 1⟩} := by
      ext j
      simp [Tree.ownLoop, hl, hposition, Tree.points_eq t, hp]
    rw [hnode, hloop, show Tree.ownTouch x t w.position =
      ∅ by simp [Tree.ownTouch, hp], Set.union_empty]
    refine h.endLoop ?_
    rintro j (hj | hj)
    · exact .inl (hbefore j hj)
    · exact .inr (Tree.mem_loops hj).1
  · simpa [hnode, Tree.ownTouch, Tree.ownLoop, hp, hl] using h

/-- A walk through trees tells their touches and their loops. -/
theorem Tells.nodes {ts : List Tree} (hx : x < w.locals.size) (h : w.Tells x touches loops) :
    (w.nodes ts).Tells x (touches ∪ Tree.found (Tree.ownTouch x) ts w.position)
      (loops ∪ Tree.found Tree.ownLoop ts w.position) := by
  induction ts using Tree.induction_forest generalizing w touches loops with
  | nil => simpa [Walk.nodes, Tree.found_nil] using h
  | cons t rest ihparts ihrest =>
    have hsize : (w.node t).locals.size = w.locals.size := size_nodes w [t]
    have hrest := ihrest (by rwa [hsize]) (.node hx h.loops_lt (ihparts hx h))
    rw [(w.passed_node t).1] at hrest
    rw [Walk.nodes, Tree.found_cons, Tree.found_cons]
    simpa only [Set.union_assoc] using hrest

end Walk

/-! ## Routines -/

namespace Routine

/-- The points of a routine that touch a local. -/
def touches (r : Routine) (x : LocalId) : Set Int := Tree.found (Tree.ownTouch x) [r.body] 0

def loops (r : Routine) : Set Interval := Tree.found Tree.ownLoop [r.body] 0

def begun (r : Routine) : Walk := { position := 0, locals := r.clearIntervals.locals }

/-- The intervals of a routine, once computed. -/
def computedInterval (r : Routine) (x : LocalId) : Option Interval :=
  intervalOf r.computeIntervals.locals x

variable {r : Routine} {x : LocalId} {i : Interval}

theorem interval_begun (x : LocalId) : r.begun.interval x =
    r.locals[x]?.bind fun l => if l.isParameter then some ⟨-1, -1⟩ else none := by
  simp only [begun, Walk.interval, intervalOf, clearIntervals, reset, Array.map_map,
    Array.getElem?_map]
  cases r.locals[x]? with
  | none => rfl
  | some l =>
    cases h : l.isParameter <;> simp [Local.reset, h]

/-- A parameter counts as touched before the first point. -/
theorem tells_computeIntervals (hx : x < r.locals.size) :
    (r.begun.nodes [r.body]).Tells x ({q | x ∈ r.parameters ∧ q = -1} ∪ r.touches x) r.loops := by
  have hstart : r.begun.Tells x {q | x ∈ r.parameters ∧ q = -1} ∅ := by
    have hp : x ∈ r.parameters ↔ r.locals[x].isParameter := by simp [parameters, hx]
    refine ⟨?_, fun _ h => h.elim, ?_, fun _ _ _ h => h.elim⟩
    · rintro q ⟨-, rfl⟩
      simp [begun]
    · rw [interval_begun, Array.getElem?_eq_getElem hx, Option.bind_some]
      split
      · next h => simp [Exact, hp, h, loopEnds]
      · next h => simp [Exact, hp, h]
  have h : (r.begun.nodes [r.body]).Tells x _ _ :=
    hstart.nodes (by simpa [begun, clearIntervals, reset] using hx)
  rwa [Set.empty_union] at h

theorem exact_computedInterval (hx : x < r.locals.size) :
    Exact ({q | x ∈ r.parameters ∧ q = -1} ∪ r.touches x) r.loops (r.computedInterval x) :=
  (tells_computeIntervals hx).exact

theorem exact_other (hp : x ∉ r.parameters) (hx : x < r.locals.size) :
    Exact (r.touches x) r.loops (r.computedInterval x) := by
  simpa [hp] using exact_computedInterval hx

/-- Apart from its interval, a local comes out as it was declared and counted, without a place. -/
theorem getElem?_computeIntervals (x : LocalId) : r.computeIntervals.locals[x]? =
    r.locals[x]?.map fun l =>
        { l with interval := r.computedInterval x, storage := .unassigned } := by
  have h : r.computeIntervals.locals[x]?.map (fun l => { l with interval := none }) =
      r.locals[x]?.map Local.reset := by
    refine ((r.begun.passed_node r.body).2 x).trans ?_
    simp only [begun, Walk.unmarked, clearIntervals, reset, Array.map_map, Array.getElem?_map,
      Option.map_map]
    congr 1
    funext l
    cases h : l.isParameter <;> simp [Local.reset, h]
  unfold computedInterval intervalOf
  cases hc : r.computeIntervals.locals[x]? with
  | none =>
    rw [hc, Option.map_none, eq_comm, Option.map_eq_none_iff] at h
    rw [h, Option.map_none]
  | some l' =>
    rw [hc, Option.map_some, eq_comm, Option.map_eq_some_iff] at h
    obtain ⟨l, hl, h⟩ := h
    rw [hl]
    cases l'
    cases h
    rfl

theorem lt_size_of_parameter (hx : x ∈ r.parameters) : x < r.locals.size := by
  obtain ⟨l, hl, -⟩ := hx
  exact (Array.getElem?_eq_some_iff.mp hl).1

theorem lt_size_of_computedInterval (h : r.computedInterval x = some i) : x < r.locals.size := by
  obtain ⟨l, hl, -⟩ := Option.bind_eq_some_iff.mp h
  rw [getElem?_computeIntervals, Option.map_eq_some_iff] at hl
  obtain ⟨l', hl', -⟩ := hl
  exact (Array.getElem?_eq_some_iff.mp hl').1

theorem computedInterval_le (h : r.computedInterval x = some i) : i.first ≤ i.last := by
  obtain ⟨hleast, hgreatest⟩ := h ▸ exact_computedInterval (lt_size_of_computedInterval h)
  exact hgreatest.2 (.inl hleast.1)

theorem computedInterval_parameter (hx : x ∈ r.parameters) :
    ∃ i, r.computedInterval x = some i ∧ i.first = -1 := by
  have h := exact_computedInterval (lt_size_of_parameter hx)
  obtain ⟨i, hi, hle, -⟩ := h.touched (.inl ⟨hx, rfl⟩)
  rw [hi] at h
  refine ⟨i, hi, le_antisymm hle ?_⟩
  rcases h.1.1 with ⟨-, hfirst⟩ | hfirst
  · exact hfirst.ge
  · have := (Tree.mem_touches hfirst).2.1
    omega

theorem computedInterval_other (hx : x ∉ r.parameters)
    (h : r.computedInterval x = some i) : 0 ≤ i.first := by
  have hexact := h ▸ exact_other hx (lt_size_of_computedInterval h)
  exact (Tree.mem_touches hexact.1.1).2.1

/-- What a routine does not mention is not live. -/
theorem computedInterval_eq_none (hx : x ∉ r.parameters) (hm : x ∉ r.body.mentions) :
    r.computedInterval x = none := by
  cases hi : r.computedInterval x with
  | none => rfl
  | some i =>
    have hexact := hi ▸ exact_other hx (lt_size_of_computedInterval hi)
    exact absurd (by simpa using (Tree.mem_touches hexact.1.1).1) hm

theorem exact_parameter (hp : x ∈ r.parameters) : ∃ last, r.computedInterval x = some ⟨-1, last⟩ ∧
    (r.touches x = ∅ → last = -1) ∧ ((r.touches x).Nonempty →
      IsGreatest (r.touches x ∪ loopEnds (r.touches x) r.loops (-1)) last) := by
  obtain ⟨⟨first, last⟩, hi, rfl⟩ := computedInterval_parameter hp
  obtain ⟨-, hmem, hle⟩ := hi ▸ exact_computedInterval (lt_size_of_parameter hp)
  -- No loop contains the point before the first one.
  have hmem' : last = -1 ∨ last ∈ r.touches x ∪ loopEnds (r.touches x) r.loops (-1) := by
    rcases hmem with (⟨-, h⟩ | h) | ⟨j, hj, he, hf, q, ⟨-, rfl⟩ | hq, hq'⟩
    · exact .inl h
    · exact .inr (.inl h)
    · exact absurd hf (not_lt.mpr hq'.1)
    · exact .inr (.inr ⟨j, hj, he, hf, q, hq, hq'⟩)
  refine ⟨last, hi, fun hnone => ?_, fun ⟨q, hq⟩ => ⟨?_, ?_⟩⟩
  · simpa [hnone, loopEnds] using hmem'
  · have hlast : q ≤ last := hle (.inl (.inr hq))
    have := (Tree.mem_touches hq).2.1
    exact hmem'.resolve_left (by omega)
  · rintro e (he | ⟨j, hj, he, hf, q, hq, hq'⟩)
    · exact hle (.inl (.inr he))
    · exact hle (.inr ⟨j, hj, he, hf, q, .inr hq, hq'⟩)

/-- Every local gets exactly the interval that its touches and the loops ask for, within the points
of the body, and nothing of an earlier allocation is left. -/
theorem intervals_exact (r : Routine) :
    (∀ x ∉ r.parameters, x < r.locals.size →
      (r.computedInterval x = none ↔ r.touches x = ∅) ∧
      ∀ i, r.computedInterval x = some i ↔ IsLeast (r.touches x) i.first ∧
        IsGreatest (r.touches x ∪ loopEnds (r.touches x) r.loops i.first) i.last) ∧
    (∀ x ∈ r.parameters, ∃ last, r.computedInterval x = some ⟨-1, last⟩ ∧
      (r.touches x = ∅ → last = -1) ∧ ((r.touches x).Nonempty →
        IsGreatest (r.touches x ∪ loopEnds (r.touches x) r.loops (-1)) last)) ∧
    (∀ x i, r.computedInterval x = some i → i.last < r.body.points) ∧
    (∀ x : LocalId, r.computeIntervals.locals[x]? = r.locals[x]?.map fun l =>
      { l with interval := r.computedInterval x, storage := .unassigned }) ∧
    ∀ r' : Routine, r'.reset = r.reset → r'.computeIntervals = r.computeIntervals := by
  refine ⟨fun x hp hx => ?_, fun x hp => exact_parameter hp, fun x i hi => ?_,
    getElem?_computeIntervals, fun r' hr => ?_⟩
  · have h := exact_other hp hx
    exact ⟨h.eq_none_iff, fun i => h.eq_some_iff⟩
  · have hx := lt_size_of_computedInterval hi
    obtain ⟨htouches, hloops, -⟩ := tells_computeIntervals hx
    have hlast := (hi ▸ exact_computedInterval hx).last_lt htouches hloops
    rw [(r.begun.passed [r.body]).1] at hlast
    simpa [begun, Tree.pointsAll] using hlast
  · obtain ⟨id, name, locals, params, body⟩ := r
    obtain ⟨id', name', locals', params', body'⟩ := r'
    simp only [reset, Routine.mk.injEq] at hr
    obtain ⟨rfl, rfl, hlocals, rfl, rfl⟩ := hr
    simp only [computeIntervals, clearIntervals, reset, hlocals]

namespace Counting

/-- Counts `i` up to the parameter, by a step that is set before the loop:
`i := 0; d := 1; while i < n do i := i + d`. -/
def counting : Routine where
  id := 0
  fullName := "counting"
  locals := #[{ name := "$result", ty := .void }, { name := "n", ty := .int, isParameter := true },
    { name := "i", ty := .int, storage := .stack 4 }, { name := "d", ty := .int }]
  paramCount := 1
  body := .ofStatements [
    .const ⟨.int, some 2⟩ (.int 0), .const ⟨.int, some 3⟩ (.int 1),
    .loop ⟨.void, none⟩
      (.binary ⟨.bool, none⟩ .lt (.load ⟨.int, none⟩ 2) (.load ⟨.int, none⟩ 1))
      (.binary ⟨.int, some 2⟩ .add (.load ⟨.int, none⟩ 2) (.load ⟨.int, none⟩ 3))]

/-- The step is last touched at point 6 and lives to the end of the loop, point 7. -/
theorem intervals_exact_counting : counting.computedInterval 3 = some ⟨1, 7⟩ ∧
    IsLeast (counting.touches 3) 1 ∧
    IsGreatest (counting.touches 3 ∪ loopEnds (counting.touches 3) counting.loops 1) 7 ∧
    counting.touches 0 = ∅ ∧ ∃ last, counting.computedInterval 1 = some ⟨-1, last⟩ ∧
      ((counting.touches 1).Nonempty →
        IsGreatest (counting.touches 1 ∪ loopEnds (counting.touches 1) counting.loops (-1))
            last) := by
  obtain ⟨hother, hparam, -⟩ := intervals_exact counting
  have hstep : counting.computedInterval 3 = some ⟨1, 7⟩ := by cbv
  have hplain : 3 ∉ counting.parameters ∧ 0 ∉ counting.parameters := by simp [parameters, counting]
  obtain ⟨hfirst, hlast⟩ := ((hother 3 hplain.1 (by decide)).2 _).mp hstep
  have hnone := (hother 0 hplain.2 (by decide)).1.mp (by cbv)
  obtain ⟨last, hi, -, hlimit⟩ := hparam 1 ⟨_, rfl, rfl⟩
  exact ⟨hstep, hfirst, hlast, hnone, last, hi, hlimit⟩

end Counting

end Routine

end Codewright
