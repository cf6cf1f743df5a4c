import Codewright.Proofs.StorageSharing
import Codewright.Proofs.WellTyped

/-!
# Definite assignment

A block, a branch and the body of a loop are scopes, and a scope is entered anew each time control
comes to it. Here a tree is evaluated with a watch on its locals: for each activation of a scope
that is still open the watch keeps the locals that the activation has brought into being, by a store
while no open activation had them. When the activation ends they are forgotten, whatever their cells
still hold. A load that finds its local in no open activation is written down.

The watch changes nothing about the evaluation, and for a scoped tree it never has anything to write
down: every load comes after a store in an activation that is still open.
-/

namespace Codewright

open Steps

/-- Locals with a watch on them. -/
structure Watched (V : Type) where
  cells : LocalId → V
  /-- The locals of each open activation, the innermost first. -/
  activations : List (List LocalId)
  /-- The loads of locals that no open activation had. -/
  missed : List LocalId := []

namespace Watched

variable {V : Type} {w : Watched V} {x y : LocalId} {v : V}

/-- Whether an open activation has the local. -/
def has (w : Watched V) (x : LocalId) : Bool := w.activations.any (·.contains x)

def load (w : Watched V) (x : LocalId) : Watched V :=
  if w.has x then w else { w with missed := w.missed ++ [x] }

/-- Notes a store: the local comes into being in the innermost activation unless an open one has
it. -/
def store (w : Watched V) (x : LocalId) (v : V) : Watched V :=
  let cells := Function.update w.cells x v
  match w.activations with
  | [] => { w with cells }
  | innermost :: outer =>
    if w.has x then { w with cells } else { w with cells, activations := (x :: innermost) :: outer }

def enter (w : Watched V) : Watched V := { w with activations := [] :: w.activations }

def leave (w : Watched V) : Watched V := { w with activations := w.activations.tail }

theorem cells_store :
    (w.store x v).cells = Function.update w.cells x v ∧ (w.store x v).missed = w.missed := by
  unfold store
  split
  · exact ⟨rfl, rfl⟩
  · split <;> exact ⟨rfl, rfl⟩

/-- A store keeps all activations but the innermost, which has the local afterwards if no other
has. -/
theorem activations_store {innermost : List LocalId} {outer : List (List LocalId)}
    (h : w.activations = innermost :: outer) :
    (w.store x v).activations = (if w.has x then innermost else x :: innermost) :: outer := by
  unfold store
  rw [h]
  simp only
  split <;> rfl

theorem has_store (hopen : w.activations ≠ []) (h : w.has y = true ∨ y = x) :
    (w.store x v).has y = true := by
  obtain ⟨innermost, outer, hw⟩ := List.exists_cons_of_ne_nil hopen
  rw [has, activations_store hw]
  rcases h with h | rfl
  · rw [has, hw] at h
    split
    · exact h
    · simp only [List.any_cons, List.contains_cons, Bool.or_eq_true] at h ⊢
      tauto
  · split
    · next h => rwa [has, hw] at h
    · simp

end Watched

namespace Evaluation

variable {V E : Type}

/-! ## Evaluation under watch -/

/-- The separate way of keeping locals, with stores noted. -/
def watched : Keeping V (Watched V) where
  read w x := w.cells x
  write w x v := w.store x v
  fetch _ _ v := v

/-- A load, which is noted. -/
def watchedRead (x : LocalId) : Evaluation V E (Watched V) V := do
  let v ← read watched x
  modify fun run => { run with memory := run.memory.load x }
  return v

/-- A part of a run as one activation of a scope. What ends the run leaves the activation open. -/
def activation {α : Type} (part : Evaluation V E (Watched V) α) : Evaluation V E (Watched V) α := do
  modify fun run => { run with memory := run.memory.enter }
  let a ← part
  modify fun run => { run with memory := run.memory.leave }
  return a

theorem watchedRead_apply (x : LocalId) (run : Run V E (Watched V)) :
    watchedRead x run = .ok (run.memory.cells x)
      { run with
        memory := run.memory.load x
        reads := run.reads ++ [(x, run.memory.cells x)] } := rfl

theorem activation_apply {α : Type} (part : Evaluation V E (Watched V) α)
    (run : Run V E (Watched V)) :
    activation part run = match part { run with memory := run.memory.enter } with
      | .ok a run' => .ok a { run' with memory := run'.memory.leave }
      | .error e run' => .error e run' := by
  show EStateM.bind part _ { run with memory := run.memory.enter } = _
  unfold EStateM.bind
  cases part { run with memory := run.memory.enter } <;> rfl

section

variable (I : Interpretation V E)

mutual

/-- The value of a node, before it is stored. -/
def observe (fuel : Nat) : Tree → Evaluation V E (Watched V) (Option V)
  | .const _ value => return some (I.constant value)
  | .load _ x => do
    let v ← watchedRead x
    return some v
  | .call tag callee args => do
    let values ← observeAll fuel args
    let vs ← given watched (args.map Tree.store) values
    let v ← perform I (.routine callee) vs
    return if tag.ty.isValue then some v else none
  | .binary _ op left right => do
    let a ← observe fuel left >>= settle watched left.store
    let b ← observe fuel right >>= settle watched right.store
    let vs ← given watched [left.store, right.store] [a, b]
    let v ← perform I (.intrinsic op) vs
    return some v
  | .unary _ op operand => do
    let a ← observe fuel operand >>= settle watched operand.store
    let vs ← given watched [operand.store] [a]
    let v ← perform I (.intrinsic op) vs
    return some v
  | .toReal _ operand => do
    let a ← observe fuel operand >>= settle watched operand.store
    let vs ← given watched [operand.store] [a]
    let v ← perform I (.intrinsic .toReal) vs
    return some v
  | .print _ args => do
    let values ← observeAll fuel args
    let vs ← given watched (args.map Tree.store) values
    let _ ← perform I (.intrinsic .print) vs
    return none
  | .failFast _ => do
    let _ ← perform I (.intrinsic .failFast) []
    return none
  | .seq _ body => do
    let _ ← activation (observeAll fuel body)
    return none
  | .ifThen _ condition yes => do
    let c ← observe fuel condition >>= settle watched condition.store
    if ← decided I c then
      let _ ← activation (observe fuel yes >>= settle watched yes.store)
    return none
  | .ifElse _ condition yes no => do
    let c ← observe fuel condition >>= settle watched condition.store
    if ← decided I c then
      let _ ← activation (observe fuel yes >>= settle watched yes.store)
    else
      let _ ← activation (observe fuel no >>= settle watched no.store)
    return none
  | .loop _ condition body => do
    rounds (observe fuel condition >>= settle watched condition.store >>= decided I)
      (activation (observe fuel body >>= settle watched body.store)) fuel
    return none
  | .ret _ => throw (.returned none)
  | .retValue _ value => do
    let v ← observe fuel value >>= settle watched value.store
    throw (.returned v)

/-- The values of nodes that are evaluated in order. -/
def observeAll (fuel : Nat) : List Tree → Evaluation V E (Watched V) (List (Option V))
  | [] => return []
  | t :: rest => do
    let v ← observe fuel t >>= settle watched t.store
    let vs ← observeAll fuel rest
    return v :: vs

end

def watch (fuel : Nat) (t : Tree) : Evaluation V E (Watched V) (Option V) :=
  observe I fuel t >>= settle watched t.store

end

variable {I : Interpretation V E} {fuel : Nat}

theorem observeAll_cons (t : Tree) (rest : List Tree) :
    observeAll I fuel (t :: rest) = (do
      let v ← watch I fuel t
      let vs ← observeAll I fuel rest
      return v :: vs) := rfl

theorem observe_operator {t : Tree} {f : Operator} (h : t.operator? = some f) :
    observe I fuel t = (do
      let values ← observeAll I fuel f.operands
      let vs ← given watched (f.operands.map Tree.store) values
      let v ← perform I f.operation vs
      return if f.yields then some v else none) := by
  cases t <;> cases h <;> simp [observe, observeAll]

theorem watch_eq_of_no_value {α : Type} {t : Tree} {x : Evaluation V E (Watched V) α}
    (h : observe I fuel t = x >>= fun _ => pure none) :
    watch I fuel t = x >>= fun _ => pure none := by
  rw [watch, h, bind_assoc]
  simp only [pure_bind, settle_of_no_value]

theorem watch_seq (tag : Tag) (body : List Tree) :
    watch I fuel (.seq tag body) = activation (observeAll I fuel body) >>= fun _ => pure none :=
  watch_eq_of_no_value rfl

theorem watch_ifThen (tag : Tag) (c y : Tree) :
    watch I fuel (.ifThen tag c y) = (do
      let v ← watch I fuel c
      let b ← decided I v
      if b then
        let _ ← activation (watch I fuel y)
        pure none
      else pure none) := by
  rw [watch, observe]
  simp only [watch, bind_assoc]
  refine bind_congr fun a => bind_congr fun v => bind_congr fun b => ?_
  cases b <;> simp [settle_of_no_value]

theorem watch_ifElse (tag : Tag) (c y n : Tree) :
    watch I fuel (.ifElse tag c y n) = (do
      let v ← watch I fuel c
      let b ← decided I v
      if b then
        let _ ← activation (watch I fuel y)
        pure none
      else
        let _ ← activation (watch I fuel n)
        pure none) := by
  rw [watch, observe]
  simp only [watch, bind_assoc]
  refine bind_congr fun a => bind_congr fun v => bind_congr fun b => ?_
  cases b <;> simp [settle_of_no_value]

theorem watch_loop (tag : Tag) (c b : Tree) :
    watch I fuel (.loop tag c b) = (do
      rounds (watch I fuel c >>= decided I) (activation (watch I fuel b)) fuel
      pure none) :=
  watch_eq_of_no_value rfl

theorem watch_retValue (tag : Tag) (v : Tree) :
    watch I fuel (.retValue tag v) = (do
      let a ← watch I fuel v
      throw (.returned a)) := by
  rw [watch, observe, bind_assoc]
  rfl

/-! ## Nothing is missed -/

/-- The same has happened in both runs, and the watch has missed nothing. -/
structure Unmissed (r₁ : Run V E (LocalId → V)) (r₂ : Run V E (Watched V)) : Prop where
  events : r₁.events = r₂.events
  reads : r₁.reads = r₂.reads
  cells : r₁.memory = r₂.memory.cells
  missed : r₂.memory.missed = []

/-- So far nothing has been missed, and the open activations have all locals of `Γ`. Around the
innermost one stand the activations `outer`. -/
structure Attends (Γ : Set LocalId) (outer : List (List LocalId)) (r₁ : Run V E (LocalId → V))
    (r₂ : Run V E (Watched V)) : Prop extends Unmissed r₁ r₂ where
  within : ∃ innermost, r₂.memory.activations = innermost :: outer
  has : ∀ x ∈ Γ, r₂.memory.has x = true

/-- Two steps do the same while the watch attends, and the open activations lose no local of `Γ`. -/
abbrev Attending {α : Type} (Γ : Set LocalId) (outer : List (List LocalId))
    (x : Evaluation V E (LocalId → V) α) (y : Evaluation V E (Watched V) α) : Prop :=
  Simulates (Attends Γ outer) x y (fun _ => Attends Γ outer) Unmissed

/-- A tree is evaluated alike under watch, and then the locals that it defines are there too. -/
abbrev Watches (I : Interpretation V E) (fuel : Nat) (Γ : Set LocalId) (outer : List (List LocalId))
    (t : Tree) : Prop :=
  Simulates (Attends Γ outer) (eval I separate fuel t) (watch I fuel t)
    (fun _ => Attends (withLocals Γ t.defines) outer) Unmissed

section

variable {Γ Γ' U : Set LocalId} {outer : List (List LocalId)} {t : Tree} {ts : List Tree}

theorem Attends.mono {r₁ : Run V E (LocalId → V)} {r₂ : Run V E (Watched V)}
    (h : Attends Γ outer r₁ r₂) (hΓ : Γ' ⊆ Γ) : Attends Γ' outer r₁ r₂ :=
  { h with has := fun x hx => h.has x (hΓ hx) }

theorem Attends.more {r₁ : Run V E (LocalId → V)} {r₂ : Run V E (Watched V)}
    (h : Attends Γ outer r₁ r₂) (more : List E) :
    Attends Γ outer { r₁ with events := r₁.events ++ more }
        { r₂ with events := r₂.events ++ more } :=
  { h with events := congrArg (· ++ more) h.events }

theorem attends_read {x : LocalId} (hx : x ∈ Γ) :
    Attending (V := V) (E := E) Γ outer (read separate x) (watchedRead x) := by
  intro r₁ r₂ h
  have hv : (separate (V := V)).read r₁.memory x = watched.read r₂.memory x := by
    show r₁.memory x = r₂.memory.cells x
    rw [h.cells]
  have hload : r₂.memory.load x = r₂.memory := by rw [Watched.load, if_pos (h.has x hx)]
  rw [watchedRead_apply, hload]
  unfold read
  rw [hv]
  exact .ok { h with reads := by rw [h.reads]; rfl }

theorem attends_settle (store : Option LocalId) (v : V) :
    Simulates (Attends Γ outer) (settle separate store (some v)) (settle watched store (some v))
      (fun _ => Attends (withLocals Γ store.toList) outer) (Unmissed (E := E)) := by
  intro r₁ r₂ h
  cases store with
  | none => exact .ok (by simpa using h)
  | some x =>
    obtain ⟨innermost, hw⟩ := h.within
    refine .ok
      { events := h.events
        reads := h.reads
        cells := ?_
        missed := Watched.cells_store.2.trans h.missed
        within := ⟨_, Watched.activations_store hw⟩
        has := fun y hy => Watched.has_store (by simp [hw]) ?_ }
    · show Function.update r₁.memory x v = (r₂.memory.store x v).cells
      rw [Watched.cells_store.1, h.cells]
    · exact hy.imp (h.has y) (by simp)

theorem attends_perform (o : Operation) (args : List V) :
    Attending Γ outer (perform I o args) (perform I o args) :=
  .perform (fun _ _ h => h.events) (fun _ _ more _ h => h.more more)
    (fun _ _ more h => (h.more more).toUnmissed)

theorem attends_decided (value : Option V) :
    Attending Γ outer (decided I value) (decided I value) :=
  .decided I value (fun _ _ h => h.events) (fun _ _ more _ h => h.more more)
    (fun _ _ h => h.toUnmissed)

theorem attends_given (stores : List (Option LocalId)) (values : List (Option V)) :
    Attending (E := E) Γ outer (given separate stores values) (given watched stores values) := by
  intro r₁ r₂ h
  have hf : fetched separate r₁.memory = fetched watched r₂.memory := by
    funext store v
    cases store <;> rfl
  unfold given
  rw [hf]
  exact .ok h

/-- An activation has what is around it, and when it ends, that is as before. -/
theorem attends_activation {α : Type} {x : Evaluation V E (LocalId → V) α}
    {y : Evaluation V E (Watched V) α} (h : ∀ innermost, Attending Γ (innermost :: outer) x y) :
    Attending Γ outer x (activation y) := by
  intro r₁ r₂ hr
  obtain ⟨innermost, hw⟩ := hr.within
  have hin : Attends Γ (innermost :: outer) r₁ { r₂ with memory := r₂.memory.enter } :=
    { hr with
      within := ⟨[], by rw [← hw]; rfl⟩
      has := fun x hx => by simpa [Watched.has, Watched.enter] using hr.has x hx }
  have hxy := h innermost r₁ _ hin
  rw [activation_apply]
  generalize x r₁ = a, y _ = b at hxy
  cases hxy with
  | error h => exact .error h
  | @ok v r₁' r₂' h' =>
    obtain ⟨_, hw'⟩ := h'.within
    have hback : r₂'.memory.leave.activations = innermost :: outer := by simp [Watched.leave, hw']
    refine .ok { h' with within := ⟨innermost, hback⟩, has := fun z hz => ?_ }
    have hz := hr.has z hz
    rw [Watched.has, hw] at hz
    rwa [Watched.has, hback]

theorem attends_observeAll {S : Set LocalId → Set LocalId → Tree → Prop}
    (ih : ∀ t ∈ ts, ∀ Γ U, S Γ U t → Watches I fuel Γ outer t) (h : Tree.InOrder S Γ U ts) :
    Simulates (Attends Γ outer) (computeAll I separate fuel ts) (observeAll I fuel ts)
      (fun _ => Attends (withLocals Γ (Tree.definesAll ts)) outer) Unmissed := by
  induction ts generalizing Γ U with
  | nil => exact .pure fun _ _ h => by simpa [Tree.definesAll] using h
  | cons t rest ihrest =>
    rw [computeAll_cons, observeAll_cons]
    refine .bind (ih t List.mem_cons_self Γ U h.1) fun v => ?_
    refine .bind (ihrest (fun t ht => ih t (List.mem_cons_of_mem _ ht)) h.2) fun vs => ?_
    exact .pure fun _ _ h => by rwa [Tree.definesAll, withLocals_append]

theorem attends_stored {x : Evaluation V E (LocalId → V) (Option V)}
    {y : Evaluation V E (Watched V) (Option V)} {store : Option LocalId} (yields : Bool)
    (h : Simulates (Attends Γ outer) x y (fun a r₁ r₂ => Attends Γ' outer r₁ r₂ ∧ a.isSome = yields)
      Unmissed) :
    Simulates (Attends Γ outer) (x >>= settle separate store) (y >>= settle watched store)
      (fun _ => Attends (withLocals Γ' (if yields then store.toList else [])) outer) Unmissed := by
  refine .bind h fun a r₁ r₂ hr => ?_
  obtain ⟨hr, rfl⟩ := hr
  cases a with
  | none =>
    rw [settle_no_value, settle_no_value]
    exact .ok (by simpa using hr)
  | some v => exact attends_settle store v r₁ r₂ hr

theorem attends_condition (h : Watches I fuel Γ outer t) :
    Attending Γ outer (eval I separate fuel t) (watch I fuel t) :=
  h.mono (fun _ _ h => h) fun _ _ _ h => h.mono (subset_withLocals _ _)

/-- What a branch or a body declares is forgotten with its activation. -/
theorem attends_inner (h : ∀ outer, Watches I fuel Γ outer t) :
    Attending Γ outer (eval I separate fuel t) (activation (watch I fuel t)) :=
  attends_activation fun _ => attends_condition (h _)

/-- Under watch a scoped tree is evaluated as ever, and no load of it is missed. -/
theorem attends_scoped (h : t.Scoped Γ U) : Watches I fuel Γ outer t := by
  unfold Watches
  -- a block and a branch have an activation of their own, hence any `outer`
  induction t using Tree.induction generalizing Γ U outer with
  | const tag value => exact attends_stored true (.pure fun _ _ h => ⟨h, rfl⟩)
  | load tag x =>
    exact attends_stored true
      (.bind (attends_read h.1) fun v => .pure fun _ _ h => ⟨h, rfl⟩)
  | failFast tag =>
    exact attends_stored false (.bind (attends_perform _ _) fun v => .pure fun _ _ h => ⟨h, rfl⟩)
  | operator t f hf ih =>
    obtain ⟨hops, -⟩ := (Tree.scopedExpr_operator hf).mp ((Tree.scoped_operator hf).mp h)
    rw [eval, watch, compute_operator hf, observe_operator hf, Tree.defines_operator hf,
      withLocals_append]
    refine attends_stored f.yields
      (.bind (attends_observeAll (fun a ha _ _ h => ih a ha h.scoped) hops) fun values => ?_)
    refine .bind (attends_given _ _) fun vs => .bind (attends_perform _ _) fun v => ?_
    refine .pure fun _ _ h => ⟨h, ?_⟩
    cases f.yields <;> rfl
  | seq tag body ih =>
    obtain ⟨-, hb⟩ := Tree.scoped_seq.mp h
    rw [Tree.defines, withLocals_nil, eval_seq, watch_seq, runAll, bind_assoc]
    refine .bind (attends_activation fun innermost => ?_) fun _ => .pure fun _ _ h => h
    exact (attends_observeAll (fun a ha _ _ h => ih a ha h) hb).mono (fun _ _ h => h)
      fun _ _ _ h => h.mono (subset_withLocals _ _)
  | ifThen tag c y ihc ihy =>
    obtain ⟨-, hc, hy⟩ := h
    rw [Tree.defines, withLocals_nil, eval_ifThen, watch_ifThen]
    refine .bind (attends_condition (ihc hc.scoped)) fun v => .bind (attends_decided v) fun b => ?_
    cases b with
    | true => exact .bind (attends_inner fun outer => ihy hy) fun _ => .pure fun _ _ h => h
    | false => exact .pure fun _ _ h => h
  | ifElse tag c y n ihc ihy ihn =>
    obtain ⟨-, hc, hy, hn⟩ := h
    rw [Tree.defines, withLocals_nil, eval_ifElse, watch_ifElse]
    refine .bind (attends_condition (ihc hc.scoped)) fun v => .bind (attends_decided v) fun b => ?_
    cases b with
    | true => exact .bind (attends_inner fun outer => ihy hy) fun _ => .pure fun _ _ h => h
    | false => exact .bind (attends_inner fun outer => ihn hn) fun _ => .pure fun _ _ h => h
  | loop tag c b ihc ihb =>
    obtain ⟨-, hc, hb⟩ := h
    rw [Tree.defines, withLocals_nil, eval_loop, watch_loop]
    refine .bind (.rounds (T := fun _ => Attends Γ outer) (fun _ _ h => h.toUnmissed) ?_
      (attends_inner fun outer => ihb hb) fuel) fun _ => .pure fun _ _ h => h
    exact .bind (attends_condition (ihc hc.scoped)) fun v => attends_decided v
  | ret tag => exact fun r₁ r₂ h => .error h.toUnmissed
  | retValue tag v ih =>
    rw [eval_retValue, watch_retValue]
    exact .bind (ih h.2.scoped) fun a => .throw fun _ _ h => h.toUnmissed

end

end Evaluation

open Evaluation

/-- The parameters in order. -/
def Routine.parameterList (r : Routine) : List LocalId := (List.range r.paramCount).map (· + 1)

/-- A routine that is scoped misses no load, if the parameters are there from the beginning. -/
theorem Routine.WellScoped.unmissed {r : Routine} (h : r.WellScoped) {V E : Type}
    (I : Interpretation V E) (fuel : Nat) (values : LocalId → V) :
    Alike (fun _ => Unmissed) Unmissed (eval I separate fuel r.body { memory := values })
      (watch I fuel r.body
        { memory := { cells := values, activations := [r.parameterList] } }) := by
  have hstart : Attends (E := E) r.parameters [] { memory := values }
      { memory := { cells := values, activations := [r.parameterList] } } :=
    { events := rfl
      reads := rfl
      cells := rfl
      missed := rfl
      within := ⟨_, rfl⟩
      has := fun x hx => by
        obtain ⟨hge, hle⟩ := (h.params x).mp hx
        simp only [Watched.has, List.any_cons, List.any_nil, Bool.or_false, List.contains_iff_mem,
          Routine.parameterList, List.mem_map, List.mem_range]
        exact ⟨x - 1, Nat.sub_one_lt_of_le hge hle, Nat.sub_add_cancel hge⟩ }
  exact (attends_scoped h.inScope _ _ hstart).mono (fun _ _ _ h => h.toUnmissed) fun _ _ h => h

/-- The routines of a program that has been collected and built are well typed at every node, return
what is declared, and load no local before it has been stored into in the activation that it belongs
to. -/
theorem built_routines_typed_and_assigned {modules : List Surface.Module} {symbols : Symbols}
    {routines : List Routine} {spans : List Source.Span}
    (hs : Symbols.collect modules = .ok symbols)
    (h : buildRoutines symbols modules = (.ok routines, spans)) (n : Nat) (r : Routine)
    (hr : routines[n]? = some r) :
    ∃ m f, (functionsOf modules)[n]? = some (m, f) ∧ r.result = .ofName f.result ∧
      (∀ t ∈ r.body.nodes, t.WellTyped symbols r) ∧
      ∀ (V E : Type) (I : Interpretation V E) (fuel : Nat) (values : LocalId → V),
        Alike (fun _ => Unmissed) Unmissed (eval I separate fuel r.body { memory := values })
          (watch I fuel r.body
            { memory := { cells := values, activations := [r.parameterList] } }) := by
  have hp := builtProgram hs h
  obtain ⟨m, f, hf, hb, hof⟩ := hp.routine n r hr
  exact ⟨m, f, hf, hof.result, hb.wellTyped hp.lists hof.unmentioned,
    fun V E I fuel values => hb.toWellScoped.unmissed I fuel values⟩

namespace Descending

def module : Surface.Module := .ofFunctions [function]

theorem collect_module : Symbols.collect [module] = .ok symbols := by cbv

theorem buildRoutines_module : buildRoutines symbols [module] = (.ok [routine], []) := by
  simp [buildRoutines, functionsOf, module, buildRoutines.go, buildRoutine_function]

end Descending

/-- The sum and the counter are stored into before each round reads them. -/
theorem built_routines_typed_and_assigned_descending :
    Symbols.collect [Descending.module] = .ok Descending.symbols ∧
    buildRoutines Descending.symbols [Descending.module] = (.ok [Descending.routine], []) ∧
    (∀ t ∈ Descending.routine.body.nodes, t.WellTyped Descending.symbols Descending.routine) ∧
    ∀ (I : Interpretation Int Unit) (fuel : Nat) (n : Int),
      Alike (fun _ => Unmissed) Unmissed
        (eval I separate fuel Descending.routine.body { memory := fun _ => n })
        (watch I fuel Descending.routine.body
          { memory := { cells := fun _ => n, activations := [[1]] } }) := by
  obtain ⟨m, f, -, -, htyped, hassigned⟩ := built_routines_typed_and_assigned
    Descending.collect_module Descending.buildRoutines_module 0 Descending.routine rfl
  exact ⟨Descending.collect_module, Descending.buildRoutines_module, htyped,
    fun I fuel n => hassigned Int Unit I fuel fun _ => n⟩

end Codewright
