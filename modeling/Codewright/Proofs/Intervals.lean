import Codewright.Proofs.ExactIntervals

/-!
# Intervals chart the evaluation

`Charted` says what the intervals of a routine promise about a tree that begins at a point: each
point lies in the intervals of the locals that it touches, what is live when a loop begins and is
touched in it lasts to the loop's end, and what begins in a loop ends in it.

Exact intervals promise all of this but the last, which takes a scoped tree: a local that a loop
introduces is not touched after the loop.
-/

namespace Codewright

namespace Tree

/-- A point lies in the intervals of some locals. -/
def Touched (iv : LocalId → Option Interval) (p : Nat) (xs : List LocalId) : Prop :=
  ∀ x ∈ xs, ∃ i, iv x = some i ∧ i.first ≤ p ∧ p ≤ i.last

/-- What the intervals promise about a loop with the points from `s` on and before `e`. -/
structure Circled (iv : LocalId → Option Interval) (s e : Nat) : Prop where
  /-- What lives into the loop lives through it. -/
  carried : ∀ x i, iv x = some i → i.first < s → s ≤ i.last → e ≤ i.last + 1
  /-- What begins in the loop ends in it. -/
  enclosed : ∀ x i, iv x = some i → s ≤ i.first → i.first < e → i.last < e

mutual

/-- The intervals are right for a tree that begins at a point. -/
def Charted (iv : LocalId → Option Interval) (p : Nat) : Tree → Prop
  | .const tag _ => Touched iv p tag.store.toList
  | .load tag x => Touched iv p (x :: tag.store.toList)
  | .call tag _ args | .print tag args => ChartedAll iv p args ∧
    Touched iv (p + pointsAll args) (args.filterMap store ++ tag.store.toList)
  | .binary tag _ left right => Charted iv p left ∧ Charted iv (p + left.points) right ∧
    Touched iv (p + pointsAll [left, right])
      ([left, right].filterMap store ++ tag.store.toList)
  | .unary tag _ operand | .toReal tag operand => Charted iv p operand ∧
    Touched iv (p + pointsAll [operand]) ([operand].filterMap store ++ tag.store.toList)
  | .retValue _ value => Charted iv p value
  | .seq _ body => ChartedAll iv p body
  | .ifThen _ condition yes => Charted iv p condition ∧ Charted iv (p + condition.points) yes
  | .ifElse _ condition yes no => Charted iv p condition ∧ Charted iv (p + condition.points) yes ∧
    Charted iv (p + condition.points + yes.points) no
  | .loop _ condition body => Charted iv p condition ∧ Charted iv (p + condition.points) body ∧
    Circled iv p (p + condition.points + body.points)
  | .ret _ | .failFast _ => True

def ChartedAll (iv : LocalId → Option Interval) (p : Nat) : List Tree → Prop
  | [] => True
  | t :: rest => Charted iv p t ∧ ChartedAll iv (p + t.points) rest

end

section

variable {iv : LocalId → Option Interval} {t : Tree} {f : Operator} {ts : List Tree}
  {p : Nat} {q : Int} {x : LocalId} {Γ U : Set LocalId}

theorem charted_operator (h : t.operator? = some f) :
    Charted iv p t ↔ ChartedAll iv p f.operands ∧
      Touched iv (p + pointsAll f.operands) (f.operands.filterMap store ++ t.store.toList) := by
  cases t <;> cases h <;> simp [Charted, ChartedAll, tag, Tree.store, and_assoc]

theorem Touched.mono {xs ys : List LocalId} (h : Touched iv p ys) (hs : xs ⊆ ys) :
    Touched iv p xs :=
  fun x hx => h x (hs hx)

/-- A tree is charted if its parts are and its own point or loop is right. -/
theorem charted_iff : Charted iv p t ↔ ChartedAll iv p t.parts ∧
    (t.hasPoint → ∀ x, t.Touches x →
      ∃ i, iv x = some i ∧ i.first ≤ p + pointsAll t.parts ∧ p + pointsAll t.parts ≤ i.last) ∧
    (t.isLoop → Circled iv p (p + t.points)) := by
  cases hf : t.operator? with
  | some f =>
    have hl : ¬ t.isLoop := by cases t <;> simp_all [isLoop, operator?]
    have hp : t.hasPoint := by simp [hasPoint, hf]
    simp [charted_operator hf, parts_operator hf, hl, hp, Touched, touches_operator hf]
  | none =>
    cases t with
    | const | load =>
      simp [Charted, ChartedAll, Touched, Touches, parts, store, tag, hasPoint, isLeaf,
        isLoop, pointsAll, eq_comm]
    | call | print | binary | unary | toReal => cases hf
    | loop | failFast | ret | seq | ifThen | ifElse | retValue =>
      simp [Charted, ChartedAll, parts, hasPoint, isLeaf, operator?, isLoop, points, Nat.add_assoc,
        and_assoc]

theorem Charted.parts (h : Charted iv p t) : ChartedAll iv p t.parts := (charted_iff.mp h).1

theorem chartedAll_of_occurs
    (htouch : ∀ x, ∀ q ∈ found (ownTouch x) ts p, ∃ i, iv x = some i ∧ i.first ≤ q ∧ q ≤ i.last)
    (hloop : ∀ n b, Occurs n b ts p → n.isLoop → Circled iv b (b + n.points)) :
    ChartedAll iv p ts := by
  induction ts using induction_forest generalizing p with
  | nil => trivial
  | cons t rest ihparts ihrest =>
    simp only [found_cons] at htouch
    refine ⟨charted_iff.mpr ⟨?_, fun hp x hx => ?_, hloop t p .here⟩, ?_⟩
    · exact ihparts (fun x q hq => htouch x q (.inl (.inl hq))) fun n b h => hloop n b (.part h)
    · exact htouch x _ (.inl (.inr ⟨hp, hx, rfl⟩))
    · refine ihrest (fun x q hq => ?_) fun n b h => hloop n b (.next h)
      exact htouch x q (.inr hq)

theorem ChartedAll.touched (h : ChartedAll iv p ts) (hq : q ∈ found (ownTouch x) ts p) :
    ∃ i, iv x = some i ∧ i.first ≤ q ∧ q ≤ i.last := by
  induction ts using induction_forest generalizing p with
  | nil => rw [found_nil] at hq; exact hq.elim
  | cons t rest ihparts ihrest =>
    obtain ⟨hparts, hown, -⟩ := charted_iff.mp h.1
    rw [found_cons] at hq
    rcases hq with (hq | ⟨hp, hx, rfl⟩) | hq
    · exact ihparts hparts hq
    · exact hown hp x hx
    · exact ihrest h.2 hq

/-! ## What a tree defines is touched -/

theorem mem_defines (hx : x ∈ t.defines) : t.hasPoint ∧
    (x ∈ definesAll t.parts ∨ t.store = some x) := by
  cases hf : t.operator? with
  | some f =>
    rw [defines_operator hf, List.mem_append, ← parts_operator hf] at hx
    refine ⟨by simp [hasPoint, hf], hx.imp_right fun hx => ?_⟩
    split at hx
    · exact Option.mem_toList.mp hx
    · cases hx
  | none =>
    cases t with
    | const | load => exact ⟨rfl, .inr (Option.mem_toList.mp hx)⟩
    | call | print | binary | unary | toReal => cases hf
    | failFast | seq | ifThen | ifElse | loop | ret | retValue => cases hx

theorem touches_nonempty (hx : x ∈ definesAll ts) (p : Nat) :
    (found (ownTouch x) ts p).Nonempty := by
  induction ts using induction_forest generalizing p with
  | nil => cases hx
  | cons t rest ihparts ihrest =>
    rw [found_cons]
    rcases List.mem_append.mp hx with hx | hx
    · obtain ⟨hp, hx | hx⟩ := mem_defines hx
      · exact ((ihparts hx p).mono Set.subset_union_left).mono Set.subset_union_left
      · exact ⟨_, .inl (.inr ⟨hp, .inr (.inl hx), rfl⟩)⟩
    · exact (ihrest hx _).mono Set.subset_union_right

theorem ChartedAll.defined (h : ChartedAll iv p ts) (hx : x ∈ definesAll ts) :
    ∃ i, iv x = some i ∧ i.first < p + pointsAll ts := by
  obtain ⟨q, hq⟩ := touches_nonempty hx p
  obtain ⟨i, hi, hfirst, -⟩ := h.touched hq
  have := (mem_touches hq).2.2
  exact ⟨i, hi, by omega⟩

theorem Charted.defined (h : Charted iv p t) (hx : x ∈ t.defines) :
    ∃ i, iv x = some i ∧ i.first < p + t.points := by
  have hall : ChartedAll iv p [t] := ⟨h, trivial⟩
  simpa [pointsAll] using hall.defined (by simpa [definesAll] using hx)

/-! ## What a loop introduces -/

theorem found_cons_eq {α : Type} {has : Tree → Nat → Set α} (t : Tree) (rest : List Tree) :
    found has (t :: rest) p = found has [t] p ∪ found has rest (p + t.points) := by
  simp [found_cons, found_nil]

theorem ScopedExpr.loops_eq_empty (h : InOrder (ScopedExpr false) Γ U ts) (p : Nat) :
    found ownLoop ts p = ∅ := by
  induction ts using induction_forest generalizing Γ U p with
  | nil => exact found_nil _ _
  | cons t rest ihparts ihrest =>
    have hparts : InOrder (ScopedExpr false) Γ U t.parts := by
      cases t with
      | const | load | failFast => trivial
      | call | print | binary | unary | toReal => exact ((scopedExpr_operator rfl).mp h.1).1
      | seq | ifThen | ifElse | loop | ret | retValue => exact h.1.elim
    have hown : ownLoop t p = ∅ := by
      cases t with
      | loop => exact h.1.elim
      | _ => simp [ownLoop, isLoop]
    rw [found_cons, ihparts hparts, hown, ihrest h.2, Set.union_empty, Set.union_empty]

theorem Scoped.loops_eq_empty (h : Scoped Γ U t) (hp : t.hasPoint) (p : Nat) :
    found ownLoop t.parts p = ∅ := by
  cases t with
  | const | load => exact found_nil _ _
  | call | print | binary | unary | toReal =>
    exact ScopedExpr.loops_eq_empty ((scopedExpr_operator rfl).mp h).1 p
  | _ => simp [hasPoint, isLeaf, operator?] at hp

/-- A local that is not known and is first touched in a loop is not touched after it. -/
theorem InOrder.touches_le (h : InOrder Scoped Γ U ts) (hΓ : x ∉ Γ) {j : Interval}
    (hj : j ∈ found ownLoop ts p) (hfirst : ∀ q ∈ found (ownTouch x) ts p, j.first ≤ q)
    (hq : q ∈ found (ownTouch x) ts p) (hle : q ≤ j.last) :
    ∀ q ∈ found (ownTouch x) ts p, q ≤ j.last := by
  induction ts using induction_forest generalizing Γ U p with
  | nil => rw [found_nil] at hq; exact hq.elim
  | cons t rest ihparts ihrest =>
    obtain ⟨ht, hrest⟩ := h
    simp only [found_cons_eq t rest] at hj hfirst hq ⊢
    have hbounds : ∀ q ∈ found (ownTouch x) [t] p, x ∈ t.mentions ∧ q < p + t.points :=
        fun q hq => by
      simpa [pointsAll] using (mem_touches hq).imp_right And.right
    rcases hj with hj | hj
    · have hlt : j.last < p + t.points := by simpa [pointsAll] using (mem_loops hj).2
      have hq : q ∈ found (ownTouch x) [t] p := by
        refine hq.resolve_right fun hq => ?_
        have := (mem_touches hq).2.1
        omega
      -- a tree with a loop in it defines nothing, so that the local is out of reach behind it
      rw [found_cons, found_nil, Set.union_empty] at hj
      have hp : ¬ t.hasPoint := fun hp => by
        rw [ht.loops_eq_empty hp, Set.empty_union] at hj
        cases t <;> simp_all [ownLoop, isLoop, hasPoint, isLeaf, operator?]
      have hrest : x ∉ mentionsAll rest := by
        refine hrest.not_mentioned (fun _ _ _ _ h hU hΓ => h.not_mentioned hU hΓ)
          (.inr (hbounds q hq).1) ?_
        exact fun hx => hx.elim hΓ fun hx => hp (mem_defines hx).1
      rintro q' (hq' | hq')
      · have htree : found (ownTouch x) [t] p = found (ownTouch x) t.parts p := by
          simp [found_cons, found_nil, ownTouch, hp]
        rw [htree] at hfirst hq hq'
        rcases hj with hj | ⟨-, rfl⟩
        · exact ihparts ht.parts hΓ hj (fun q hq => hfirst q (.inl hq)) hq q' hq'
        · have := hbounds q' (htree ▸ hq')
          simp only
          omega
      · exact absurd (mem_touches hq').1 hrest
    · have hge := (mem_loops hj).1
      have hnone : ∀ q, q ∉ found (ownTouch x) [t] p := fun q hq => by
        have := (hbounds q hq).2
        have := hfirst q (.inl hq)
        omega
      have hΓ' : x ∉ withLocals Γ t.defines := by
        rintro (hx | hx)
        · exact hΓ hx
        · have hx : x ∈ definesAll [t] := by simpa [definesAll] using hx
          obtain ⟨q, hq⟩ := touches_nonempty hx p
          exact hnone q hq
      rintro q' (hq' | hq')
      · exact absurd hq' (hnone q')
      · exact ihrest hrest hΓ' hj (fun q hq => hfirst q (.inr hq))
          (hq.resolve_left (hnone q)) q' hq'

end

end Tree

/-! ## Routines -/

namespace Routine

variable {r : Routine}

/-- The computed intervals chart the body of a scoped routine. -/
theorem charted (h : r.WellScoped) : r.body.Charted r.computedInterval 0 := by
  have hall : Tree.ChartedAll r.computedInterval 0 [r.body] := by
    refine Tree.chartedAll_of_occurs (fun x q hq => ?_) fun n b hn hloop => ?_
    · have hx : x < r.locals.size := h.inTable x (by simpa using (Tree.mem_touches hq).1)
      exact (exact_computedInterval hx).touched (.inr hq)
    · have hj : ⟨b, b + n.points - 1⟩ ∈ r.loops := ⟨n, b, hn, hloop, rfl⟩
      have hlooped := fun x i (hi : r.computedInterval x = some i) =>
        (tells_computeIntervals (lt_size_of_computedInterval hi)).looped i hi _ hj
      refine ⟨fun x i hi hfirst hlast => ?_, fun x i hi hfirst hlast => ?_⟩
      · have hcarried : b + n.points - 1 ≤ i.last := (hlooped x i hi).1 hfirst hlast
        push_cast
        omega
      · have hp : x ∉ r.parameters := fun hp => by
          obtain ⟨i', hi', hstart⟩ := computedInterval_parameter hp
          cases hi.symm.trans hi'
          omega
        have hexact := hi ▸ exact_other hp (lt_size_of_computedInterval hi)
        have hin : i.first ≤ b + n.points - 1 := by omega
        have hscoped : Tree.InOrder Tree.Scoped r.parameters r.parameters [r.body] :=
          ⟨h.inScope, trivial⟩
        have hle := hscoped.touches_le hp hj (fun q hq => hfirst.trans (hexact.1.2 hq))
          hexact.1.1 hin
        rcases (hlooped x i hi).2 hfirst hin with hend | ⟨q, ⟨hp', -⟩ | hq, hafter⟩
        · have hend : i.last ≤ b + n.points - 1 := hend
          push_cast
          omega
        · exact absurd hp' hp
        · exact absurd (hle q hq) (not_le.mpr hafter)
  exact hall.1

end Routine

end Codewright
