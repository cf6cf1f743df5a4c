import Codewright.Proofs.SingleUseRuns

/-!
# No single use is left

After the removal no statement can be taken into the next one any more (`settled_removeSingleUses`):
where the next one still starts with a load of what was stored, the search does not look there
(`loadsFirst_iff`). Statements are taken in from the left, and a merge can undo nothing that was
settled before: it takes the counts of one local to zero and changes no other, so no local becomes a
single use; and the statement that has taken in another one stores where it did before, so it stands
to its right as it did. What stands to its left is looked at again.
-/

namespace Codewright

namespace Tree

open Relation (ReflTransGen)

variable {locals locals' : Locals} {t value : Tree} {x y : LocalId} {tag : Tag}

/-- The table says that a local is stored once and loaded once, and it is no parameter. -/
def Single (locals : Locals) (x : LocalId) : Prop :=
  ∃ l, locals[x]? = some l ∧ l.isParameter = false ∧ l.assignments = 1 ∧ l.uses = 1

/-- Nothing is stored for the next statement only. -/
def Apart (locals : Locals) (a b : Tree) : Prop :=
  ∀ x, a.store = some x → Single locals x → ¬LoadsFirst x b

/-- No statement in the sequences of a tree can be taken into the next one. -/
def Settled (locals : Locals) (t : Tree) : Prop := ∀ x t', Single locals x → ¬Merge x t t'

/-! ## What comes first -/

/-- A statement that does nothing: a sequence of such statements, or of none. -/
inductive Idle : Tree → Prop
  | seq {tag : Tag} {body : List Tree} (h : ∀ t ∈ body, Idle t) : Idle (.seq tag body)

/-- The evaluation of a tree starts with a load of the local. Parts are evaluated in their order. -/
inductive EvaluatesFirst (x : LocalId) : Tree → Prop
  | load {tag : Tag} : EvaluatesFirst x (.load tag x)
  | part {t a : Tree} {before rest : List Tree} (hparts : t.parts = before ++ a :: rest)
    (hbefore : ∀ b ∈ before, Idle b) (ha : EvaluatesFirst x a) : EvaluatesFirst x t

/-- What is evaluated first lies in a loop, which may run again, or after a part that does
nothing. -/
inductive Unsearched : Tree → Prop
  | loop {tag : Tag} {c body : Tree} : Unsearched (.loop tag c body)
  | idle {t a : Tree} {rest : List Tree} (hparts : t.parts = a :: rest) (ha : Idle a) : Unsearched t
  | first {t a : Tree} {rest : List Tree} (hparts : t.parts = a :: rest) (ha : Unsearched a) :
    Unsearched t

theorem EvaluatesFirst.of_first {a : Tree} {rest : List Tree} (hparts : t.parts = a :: rest)
    (ha : EvaluatesFirst x a) : EvaluatesFirst x t :=
  .part (List.nil_append (a :: rest) ▸ hparts) (by simp) ha

theorem LoadsFirst.not_idle (h : LoadsFirst x t) : ¬Idle t := by
  induction h using LoadsFirst.induction_parts with
  | load => rintro ⟨⟩
  | first t a rest h _ hparts ih =>
    rintro ⟨hall⟩
    cases hparts
    exact ih (hall a List.mem_cons_self)

theorem LoadsFirst.not_unsearched (h : LoadsFirst x t) : ¬Unsearched t := by
  induction h using LoadsFirst.induction_parts with
  | load =>
    intro hu
    cases hu with
    | idle hparts | first hparts => cases hparts
  | first t a rest h ha hparts ih =>
    intro hu
    cases hu with
    | loop => cases h with
      | operator hf => cases hf
    | idle hparts' hidle =>
      cases hparts.symm.trans hparts'
      exact ha.not_idle hidle
    | first hparts' hfirst =>
      cases hparts.symm.trans hparts'
      exact ih hfirst

theorem LoadsFirst.of_parts {a : Tree} {rest : List Tree} (hparts : t.parts = a :: rest)
    (ht : ¬Unsearched t) (ha : LoadsFirst x a) : LoadsFirst x t := by
  cases hop : t.operator? with
  | some f => exact .operator hop ((parts_operator hop).symm.trans hparts) ha
  | none =>
    cases t with
    | seq => cases hparts; exact .seq ha
    | ifThen => cases hparts; exact .ifThen ha
    | ifElse => cases hparts; exact .ifElse ha
    | retValue => cases hparts; exact .retValue ha
    | loop => exact absurd .loop ht
    | const | load | failFast | ret => cases hparts
    | _ => cases hop

/-- The search finds the load that is evaluated first, unless it does not look there. -/
theorem loadsFirst_iff : LoadsFirst x t ↔ EvaluatesFirst x t ∧ ¬Unsearched t := by
  refine ⟨fun h => ⟨?_, h.not_unsearched⟩, ?_⟩
  · induction h using LoadsFirst.induction_parts with
    | load => exact .load
    | first t a rest h _ hparts ih => exact .of_first hparts ih
  · rintro ⟨h, hs⟩
    induction h with
    | load => exact .load
    | @part t a before rest hparts hbefore ha ih =>
      cases before with
      | nil => exact .of_parts hparts hs (ih fun hu => hs (.first hparts hu))
      | cons b before => exact absurd (.idle hparts (hbefore b List.mem_cons_self)) hs

/-- The two statements follow each other in a sequence that is reached through sequences, branches
and the bodies of loops. -/
inductive Adjacent (a b : Tree) : Tree → Prop
  | here {tag : Tag} {before after : List Tree} :
    Adjacent a b (.seq tag (before ++ a :: b :: after))
  | inside {tag : Tag} {before after : List Tree} {t : Tree} (h : Adjacent a b t) :
    Adjacent a b (.seq tag (before ++ t :: after))
  | thenBranch {tag : Tag} {c y : Tree} (h : Adjacent a b y) : Adjacent a b (.ifThen tag c y)
  | yesBranch {tag : Tag} {c y n : Tree} (h : Adjacent a b y) : Adjacent a b (.ifElse tag c y n)
  | noBranch {tag : Tag} {c y n : Tree} (h : Adjacent a b n) : Adjacent a b (.ifElse tag c y n)
  | body {tag : Tag} {c body : Tree} (h : Adjacent a b body) : Adjacent a b (.loop tag c body)

theorem Adjacent.exists_merge {a b : Tree} (h : Adjacent a b t) (hs : a.store = some x)
    (hl : LoadsFirst x b) : ∃ t', Merge x t t' := by
  induction h with
  | here => exact ⟨_, .here hs hl⟩
  | inside _ ih => exact ih.imp' _ fun _ => .inside
  | thenBranch _ ih => exact ih.imp' _ fun _ => .thenBranch
  | yesBranch _ ih => exact ih.imp' _ fun _ => .yesBranch
  | noBranch _ ih => exact ih.imp' _ fun _ => .noBranch
  | body _ ih => exact ih.imp' _ fun _ => .body

/-! ## Trees that are settled -/

theorem settled_seq {body : List Tree} : Settled locals (.seq tag body) ↔
    (∀ t ∈ body, Settled locals t) ∧ body.IsChain (Apart locals) := by
  rw [List.isChain_iff_forall_rel_of_append_cons_cons]
  constructor
  · intro h
    refine ⟨fun t ht x t' hx hm => ?_, fun a b before after heq x hs hx hl => ?_⟩
    · obtain ⟨before, after, rfl⟩ := List.append_of_mem ht
      exact h x _ hx (.inside hm)
    · subst heq
      exact h x _ hx (.here hs hl)
  · rintro ⟨hall, hchain⟩ x t' hx hm
    cases hm with
    | here hs hl => exact hchain rfl x hs hx hl
    | inside hm => exact hall _ (by simp) x _ hx hm

theorem settled_concat {body : List Tree} : Settled locals (.seq tag (body ++ [t])) ↔
    Settled locals (.seq tag body) ∧ Settled locals t ∧ ∀ a ∈ body.getLast?, Apart locals a t := by
  rw [settled_seq, settled_seq, List.forall_mem_append, List.isChain_append]
  simp only [List.forall_mem_singleton, List.isChain_singleton, List.head?_cons,
    Option.mem_some_iff, forall_eq', true_and]
  tauto

theorem settled_ifThen {c yes : Tree} : Settled locals (.ifThen tag c yes) ↔
    Settled locals yes := by
  refine ⟨fun h x t' hx hm => h x _ hx (.thenBranch hm), fun h x t' hx hm => ?_⟩
  cases hm with
  | thenBranch hm => exact h x _ hx hm

theorem settled_ifElse {c yes no : Tree} : Settled locals (.ifElse tag c yes no) ↔
    Settled locals yes ∧ Settled locals no := by
  refine ⟨fun h => ⟨fun x t' hx hm => h x _ hx (.yesBranch hm), fun x t' hx hm =>
    h x _ hx (.noBranch hm)⟩,
    fun h x t' hx hm => ?_⟩
  cases hm with
  | yesBranch hm => exact h.1 x _ hx hm
  | noBranch hm => exact h.2 x _ hx hm

theorem settled_loop {c body : Tree} : Settled locals (.loop tag c body) ↔ Settled locals body := by
  refine ⟨fun h x t' hx hm => h x _ hx (.body hm), fun h x t' hx hm => ?_⟩
  cases hm with
  | body hm => exact h x _ hx hm

theorem settled_operator {f : Operator} (h : t.operator? = some f) : Settled locals t := by
  intro x t' hx hm
  cases hm <;> cases h

theorem settled_withStore {store : Option LocalId} :
    Settled locals (t.withStore store) ↔ Settled locals t := by
  cases t with
  | seq => exact settled_seq.trans settled_seq.symm
  | ifThen => exact settled_ifThen.trans settled_ifThen.symm
  | ifElse => exact settled_ifElse.trans settled_ifElse.symm
  | loop => exact settled_loop.trans settled_loop.symm
  | _ => exact ⟨fun _ _ _ _ hm => (by cases hm), fun _ _ _ _ hm => (by cases hm)⟩

theorem Settled.mono (h : Settled locals t) (hle : ∀ x, Single locals' x → Single locals x) :
    Settled locals' t :=
  fun x t' hx => h x t' (hle x hx)

/-- The tree with the value in the place of its first load has no sequence that is not one of
theirs, but for the heads of sequences, which store where they did. -/
theorem Settled.replaceFirstLoad (ht : Settled locals t) (hl : LoadsFirst x t)
    (hv : Settled locals value) : Settled locals (replaceFirstLoad value t) := by
  induction hl with
  | load => exact settled_withStore.mpr hv
  | operator hf hops => exact settled_operator (replaceFirstLoad_operator hf hops)
  | seq _ ih =>
    obtain ⟨hall, hchain⟩ := settled_seq.mp ht
    obtain ⟨ha, hrest⟩ := List.forall_mem_cons.mp hall
    refine settled_seq.mpr ⟨List.forall_mem_cons.mpr ⟨ih ha, hrest⟩, ?_⟩
    rw [replaceFirstLoadOf, List.isChain_cons]
    rw [List.isChain_cons] at hchain
    refine ⟨fun b hb z hz => hchain.1 b hb z ?_, hchain.2⟩
    rwa [store_replaceFirstLoad] at hz
  | ifThen => exact settled_ifThen.mpr (settled_ifThen.mp ht)
  | ifElse => exact settled_ifElse.mpr (settled_ifElse.mp ht)
  | retValue => exact fun _ _ _ hm => (by cases hm)

/-! ## The removal settles -/

/-- No merge makes a local a single use. -/
theorem merges_same {p q : Locals × Tree} (h : ReflTransGen MergeStep p q) (hx : Single q.1 x) :
    q.1[x]? = p.1[x]? := by
  rcases merges_entry h x with hsame | ⟨l, -, -, -, hl⟩
  · exact hsame
  · obtain ⟨l', hl', -, ha, -⟩ := hx
    cases hl.symm.trans hl'
    cases ha

theorem single_of_removeSingleUses {state : Removal}
    (hx : Single (removeSingleUses state t).2.locals x) : Single state.locals x := by
  rwa [Single, merges_same (merges_removeSingleUses t state) hx] at hx

theorem single_of_forget (hx : Single locals x) (hy : Single (forget locals x) y) :
    Single locals y := by
  obtain ⟨l, hl, -, ha, -⟩ := hx
  obtain ⟨l', hl', hrest⟩ := hy
  rw [getElem?_forget] at hl'
  by_cases hxy : x = y
  · subst hxy
    rw [if_pos rfl, hl] at hl'
    cases hl'
    simp [ha] at hrest
  · rw [if_neg hxy] at hl'
    exact ⟨l', hl', hrest⟩

theorem settled_absorb {state : Removal} {before : List Tree}
    (hb : Settled state.locals (.seq tag before.reverse)) (ht : Settled state.locals t) :
    Settled (absorb state t before).2.locals (.seq tag (absorb state t before).1.reverse) := by
  induction before generalizing state t with
  | nil => exact settled_concat.mpr ⟨hb, ht, by simp⟩
  | cons previous earlier ih =>
    rw [absorb]
    have hstays : (∀ x, singleUse? state.locals previous = some x → t.firstLoad? ≠ some x) →
        Settled state.locals (.seq tag (t :: previous :: earlier).reverse) := by
      intro hapart
      rw [List.reverse_cons, settled_concat]
      refine ⟨hb, ht, fun a ha x hs hx hl => ?_⟩
      rw [List.reverse_cons, List.getLast?_concat] at ha
      cases ha
      exact hapart x (singleUse?_eq_some.mpr ⟨hs, hx⟩) hl.firstLoad?
    rw [List.reverse_cons, settled_concat] at hb
    cases hx : singleUse? state.locals previous with
    | none => exact hstays (by simp [hx])
    | some x =>
      dsimp only
      split
      · next hfirst =>
        have hless : ∀ y, Single (forget state.locals x) y → Single state.locals y := fun y =>
          single_of_forget (singleUse?_eq_some.mp hx).2
        refine ih (hb.1.mono hless) (.mono ?_ hless)
        exact ht.replaceFirstLoad (loadsFirst_of_firstLoad? hfirst) (settled_withStore.mpr hb.2.1)
      · next hfirst => exact hstays (by simpa [hx] using hfirst)

mutual

theorem settled_removeSingleUses : ∀ (t : Tree) (state : Removal),
    Settled (removeSingleUses state t).2.locals (removeSingleUses state t).1
  | .seq tag body, state => by
    rw [removeSingleUses]
    exact settled_removeInSequence tag body state [] (settled_seq.mpr ⟨by simp, by simp⟩)
  | .ifThen tag c y, state => by
    rw [removeSingleUses]
    exact settled_ifThen.mpr (settled_removeSingleUses y state)
  | .ifElse tag c y n, state => by
    rw [removeSingleUses]
    refine settled_ifElse.mpr ⟨?_, settled_removeSingleUses n _⟩
    exact (settled_removeSingleUses y state).mono fun _ => single_of_removeSingleUses
  | .loop tag c b, state => by
    rw [removeSingleUses]
    exact settled_loop.mpr (settled_removeSingleUses b state)
  | .const _ _, _ | .load _ _, _ | .call _ _ _, _ | .binary _ _ _ _, _ | .unary _ _ _, _
  | .ret _, _ | .retValue _ _, _ | .print _ _, _ | .failFast _, _ | .toReal _ _, _ => by
    rw [removeSingleUses]
    intro x t' hx hm
    cases hm

theorem settled_removeInSequence (tag : Tag) : ∀ (rest : List Tree) (state : Removal)
    (done : List Tree), Settled state.locals (.seq tag done.reverse) →
      Settled (removeInSequence state done rest).2.locals
        (.seq tag (removeInSequence state done rest).1)
  | [], state, done, h => by rwa [removeInSequence]
  | t :: rest, state, done, h => by
    rw [removeInSequence]
    refine settled_removeInSequence tag rest _ _
      (settled_absorb ?_ (settled_removeSingleUses t state))
    exact h.mono fun _ => single_of_removeSingleUses

end

/-! ## How many go -/

/-- How often a local is stored into and loaded, as the table says. -/
def countsOf (locals : Locals) (x : LocalId) : Nat × Nat :=
  (assignmentsOf locals x, usesOf locals x)

theorem countsOf_forget : countsOf (forget locals x) y =
    if x = y then ((countsOf locals y).1 - 1, (countsOf locals y).2 - 1)
    else countsOf locals y := by
  simp only [countsOf, usesOf, assignmentsOf, getElem?_forget]
  split
  · cases locals[y]? <;> rfl
  · rfl

/-- The locals whose counts go from one to zero between two tables. -/
def spent (before after : Locals) : Finset LocalId :=
  {x ∈ Finset.range before.size | countsOf before x = (1, 1) ∧ countsOf after x = (0, 0)}

/-- Each merge spends one local more. -/
theorem removals_removed {p q : Removal × Tree} (h : ReflTransGen RemovalStep p q) :
    q.1.removed = p.1.removed + (spent p.1.locals q.1.locals).card := by
  induction h with
  | refl => simp +contextual [spent]
  | @tail q r hchain hstep ih =>
    obtain ⟨⟨x, l, hl, hparam, ha, hu, -, heq⟩, hcount⟩ := hstep
    have hsame : q.1.locals[x]? = p.1.locals[x]? :=
      merges_same (hchain.lift (fun p => (p.1.locals, p.2)) fun _ _ h => h.1)
        ⟨l, hl, hparam, ha, hu⟩
    have hone : countsOf q.1.locals x = (1, 1) := by
      simp [countsOf, usesOf, assignmentsOf, hl, ha, hu]
    have hfirst : x < p.1.locals.size ∧ countsOf p.1.locals x = (1, 1) := by
      refine ⟨(Array.getElem?_eq_some_iff.mp (hsame.symm.trans hl)).1, ?_⟩
      rw [← hone, countsOf, countsOf, usesOf, assignmentsOf, ← hsame]
      rfl
    have hspent : spent p.1.locals r.1.locals = insert x (spent p.1.locals q.1.locals) := by
      ext z
      rw [show r.1.locals = forget q.1.locals x from heq, Finset.mem_insert]
      simp only [spent, Finset.mem_filter, Finset.mem_range, countsOf_forget]
      by_cases hz : x = z
      · subst hz
        simp [hone, hfirst]
      · simp [hz, Ne.symm hz]
    have hnew : x ∉ spent p.1.locals q.1.locals := by simp [spent, hone]
    rw [hcount, ih, hspent, Finset.card_insert_of_notMem hnew, Nat.add_assoc]

end Tree

/-- One run of the removal leaves nothing to remove. Whatever the counts of a routine say,
afterwards no sequence that is reached through sequences, branches and loop bodies has a statement
that stores into a local, no parameter, with counts of one and before one that starts with a load of
it, except where the search does not look: loops are never searched, and of a sequence only the
first statement is. A second run removes nothing and changes nothing. The number that is returned is
the number of locals whose counts went from one to zero. -/
theorem single_uses_removed_at_once (r : Routine) : let r' := r.removeSingleUses.1
    (∀ a b x, Tree.Adjacent a b r'.body → a.store = some x → Tree.Single r'.locals x →
      Tree.EvaluatesFirst x b → Tree.Unsearched b) ∧
    r'.removeSingleUses = (r', 0) ∧
        r.removeSingleUses.2 = (Tree.spent r.locals r'.locals).card := by
  intro r'
  have hsettled : Tree.Settled r'.locals r'.body := Tree.settled_removeSingleUses r.body _
  refine ⟨fun a b x hab hs hx hfirst => ?_, ?_, ?_⟩
  · by_contra hsearched
    obtain ⟨t', hm⟩ := hab.exists_merge hs (Tree.loadsFirst_iff.mpr ⟨hfirst, hsearched⟩)
    exact hsettled x t' hx hm
  · -- From a settled tree no step leads on.
    have hend : ∀ q, ¬Tree.RemovalStep ({ locals := r'.locals }, r'.body) q := by
      rintro q ⟨⟨x, l, hl, hparam, ha, hu, hm, -⟩, -⟩
      exact hsettled x _ ⟨l, hl, hparam, ha, hu⟩ hm
    have hsame := (Relation.reflTransGen_iff_eq hend).mp
      (Tree.removals_removeSingleUses r'.body { locals := r'.locals })
    obtain ⟨hstate, hbody⟩ := Prod.mk.inj hsame
    rw [Routine.removeSingleUses, show Tree.removeSingleUses _ r'.body = (_, _) from Prod.ext
      hbody hstate]
  · have hcount :=
      Tree.removals_removed (Tree.removals_removeSingleUses r.body { locals := r.locals })
    rwa [Nat.zero_add] at hcount

namespace Rechecked

/-- `t := n; while t > 3 print(n); return n`. -/
def routine : Routine where
  id := 0
  fullName := "main.f"
  locals := #[
    { name := "$result", ty := .int },
    { name := "n", ty := .int, isParameter := true, uses := 3 },
    { name := "t", ty := .int, assignments := 1, uses := 1 }]
  paramCount := 1
  body := .seq { ty := .void }
    [.load { ty := .int, store := some 2 } 1,
     .loop { ty := .void }
       (.binary { ty := .bool } .gt (.load { ty := .int } 2) (.ofValue (.int 3)))
       (.print { ty := .void } [.load { ty := .int } 1]),
     .retValue { ty := .void } (.load { ty := .int } 1)]

/-- The load in the condition of the loop comes first, and the store before it stays. -/
theorem single_use_left_before_loop :
    ¬∀ a b x, Tree.Adjacent a b routine.removeSingleUses.1.body → a.store = some x →
      Tree.Single routine.removeSingleUses.1.locals x → ¬Tree.EvaluatesFirst x b := by
  have hsame : routine.removeSingleUses = (routine, 0) := rfl
  rw [hsame]
  intro h
  exact h _ _ 2 (@Tree.Adjacent.here _ _ _ [] _) rfl ⟨_, rfl, rfl, rfl, rfl⟩
    (.of_first rfl (.of_first rfl .load))

end Rechecked

end Codewright
