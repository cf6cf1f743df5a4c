import Codewright.Proofs.SingleUse
import Codewright.Proofs.StoredLoads

/-!
# Runs after single uses are removed

Nothing happens before the first load of a statement, so what was stored by the statement before it
may as well be computed there. That is right for any tree, whatever else its nodes store: all that
is needed is that the table counts loads and stores, and that no load comes before a store.

After a merge the local is no longer stored into, so its cell may hold something else than before.
Nothing loads it any more, which is why the runs are compared with `AgreeOff`: all other locals end
with the same values, however the run ends.
-/

namespace Codewright

namespace Tree

/-! ## Stores before loads -/

/-- What takes the place of a load stores nowhere by itself, and has a value unless it does not come
to its end. -/
structure Supplies (value : Tree) : Prop where
  store : value.store = none
  yields : value.yields = true ∨ ∀ z, value.storesSurely z = true

section

variable {t t' value previous : Tree} {x z : LocalId} {flag : Bool}

theorem LoadsFirst.stored (h : LoadsFirst x t) (hl : t.loadsStored x flag = true) :
    flag = true := by
  induction h with
  | load => simpa [loadsStored] using hl
  | operator hf hops _ ih =>
    rw [loadsStored_operator hf, hops, loadsStoredAll, Bool.and_eq_true] at hl
    exact ih hl.1
  | seq _ ih | ifThen _ ih | ifElse _ ih => exact ih (Bool.and_eq_true_iff.mp hl).1
  | retValue _ ih => exact ih hl

/-- A statement whose store is loaded next supplies a value. -/
theorem supplies_of_storesSurely (hs : previous.store = some x)
    (hx : x ∉ (previous.withStore none).stores) (h : previous.storesSurely x = true) :
    Supplies (previous.withStore none) := by
  refine ⟨store_withStore _ _, ?_⟩
  rw [← withStore_store hs, storesSurely_withStore, Bool.or_eq_true] at h
  rcases h with h | h
  · exact .inr fun z => storesSurely_of_not_stored h hx z
  · rw [Bool.and_eq_true] at h
    exact .inl ((yields_withStore _ _).trans h.1)

theorem LoadsFirst.storesSurely (h : LoadsFirst x t) (hv : Supplies value) (z : LocalId) :
    (replaceFirstLoad value t).storesSurely z = (value.storesSurely z || t.storesSurely z) := by
  induction h with
  | load =>
    rw [replaceFirstLoad, storesSurely_withStore, withStore_store hv.store, Tree.storesSurely]
    rcases hv.yields with hy | hs
    · rw [hy, Bool.true_and]
    · rw [hs z, Bool.true_or, Bool.true_or]
  | operator hf hops _ ih =>
    rw [storesSurely_operator hf, storesSurely_operator (replaceFirstLoad_operator hf hops), hops,
      storesSurelyAll, storesSurelyAll, ih, store_replaceFirstLoad]
    simp only [Bool.or_assoc]
  | seq _ ih =>
    simp only [replaceFirstLoad, replaceFirstLoadOf, Tree.storesSurely, storesSurelyAll, ih,
      Bool.or_assoc]
  | ifThen _ ih => simp only [replaceFirstLoad, Tree.storesSurely, ih]
  | ifElse _ ih => simp only [replaceFirstLoad, Tree.storesSurely, ih, Bool.or_assoc]
  | retValue => simp only [replaceFirstLoad, Tree.storesSurely, Bool.or_true]

/-- For another local than the one that is replaced, the value comes first and then the tree. -/
theorem LoadsFirst.loadsStored (h : LoadsFirst x t) (hv : Supplies value) (hz : z ≠ x)
    (flag : Bool) :
    (replaceFirstLoad value t).loadsStored z flag =
      (value.loadsStored z flag && t.loadsStored z (flag || value.storesSurely z)) := by
  induction h with
  | load => simp [replaceFirstLoad, loadsStored_withStore, Tree.loadsStored, hz.symm]
  | operator hf hops ha ih =>
    rw [loadsStored_operator hf, loadsStored_operator (replaceFirstLoad_operator hf hops), hops,
      loadsStoredAll, loadsStoredAll, ih, ha.storesSurely hv]
    simp only [Bool.and_assoc, Bool.or_assoc]
  | seq ha ih =>
    simp only [replaceFirstLoad, replaceFirstLoadOf, Tree.loadsStored, loadsStoredAll, ih,
      ha.storesSurely hv, Bool.and_assoc, Bool.or_assoc]
  | ifThen hc ih | ifElse hc ih =>
    simp only [replaceFirstLoad, Tree.loadsStored, ih, hc.storesSurely hv, Bool.and_assoc,
      Bool.or_assoc]
  | retValue _ ih => simp only [replaceFirstLoad, Tree.loadsStored, ih]

/-- A part before a tree that does not store into a local does not come to its end, or it leaves
what is asked of the tree as it was. -/
theorem loadsStored_behind {c : Tree} (hc : x ∉ c.stores)
    (hl : t.loadsStored x (c.storesSurely x) = true) :
    (∀ z, c.storesSurely z = true) ∨ t.loadsStored x false = true := by
  cases hsure : c.storesSurely x with
  | true => exact .inl (storesSurely_of_not_stored hsure hc)
  | false => exact .inr (hsure ▸ hl)

theorem Merge.loadsStored (h : Merge x t t') (hx : x ∉ t'.stores)
    (hl : t.loadsStored x false = true) (hz : z ≠ x) :
    t'.storesSurely z = t.storesSurely z ∧
        ∀ flag, t'.loadsStored z flag = t.loadsStored z flag := by
  induction h with
  | @here tag before after previous statement hs hl' =>
    simp only [Tree.stores, storesAll_append, storesAll, hl'.stores, withStore_withStore,
      Tree.loadsStored,
      loadsStoredAll_append, loadsStoredAll, List.mem_append, not_or, Bool.and_eq_true,
        Bool.false_or] at hx hl
    obtain ⟨⟨hbefore, ⟨hvalue, -⟩, -⟩, -⟩ := hx
    have hprevious : previous.storesSurely z = (previous.withStore none).storesSurely z := by
      conv_lhs => rw [← withStore_store hs, storesSurely_withStore]
      simp [hz.symm]
    simp only [Tree.storesSurely, Tree.loadsStored, storesSurelyAll_append, storesSurelyAll,
      loadsStoredAll_append, loadsStoredAll]
    rcases Bool.or_eq_true_iff.mp (hl'.stored hl.2.2.1) with hall | hsure
    · -- What comes before does not come to its end, so all is the same behind it.
      have hall := storesSurelyAll_of_not_stored hall hbefore z
      simp [hall, loadsStoredAll_after, loadsStored_of_imp]
    · have hv := supplies_of_storesSurely hs hvalue hsure
      simp only [hl'.storesSurely hv, hl'.loadsStored hv hz, hprevious, loadsStored_withStore,
        Bool.or_assoc, Bool.and_assoc, implies_true, and_self]
  | @inside tag before after t t' _ ih =>
    simp only [Tree.stores, storesAll_append, storesAll, Tree.loadsStored, loadsStoredAll_append,
      loadsStoredAll, List.mem_append, not_or, Bool.and_eq_true, Bool.false_or] at hx hl
    obtain ⟨⟨hbefore, hinner, -⟩, -⟩ := hx
    simp only [Tree.storesSurely, Tree.loadsStored, storesSurelyAll_append, storesSurelyAll,
      loadsStoredAll_append, loadsStoredAll]
    cases hall : storesSurelyAll x before with
    | true =>
      have hall := storesSurelyAll_of_not_stored hall hbefore z
      simp [hall, loadsStoredAll_after, loadsStored_of_imp]
    | false =>
      rw [hall] at hl
      obtain ⟨hsure, hsame⟩ := ih hinner hl.2.1
      simp [hsure, hsame]
  | thenBranch _ ih | body _ ih =>
    simp only [Tree.stores, Tree.loadsStored, List.mem_append, not_or, Bool.and_eq_true,
      Bool.false_or] at hx hl
    refine ⟨rfl, fun flag => ?_⟩
    simp only [Tree.loadsStored]
    rcases loadsStored_behind hx.1.1 hl.2 with hall | hl
    · simp [hall, loadsStored_of_imp]
    · rw [(ih hx.1.2 hl).2]
  | yesBranch _ ih =>
    simp only [Tree.stores, Tree.loadsStored, List.mem_append, not_or, Bool.and_eq_true,
      Bool.false_or] at hx hl
    simp only [Tree.storesSurely, Tree.loadsStored]
    rcases loadsStored_behind hx.1.1.1 hl.2.1 with hall | hl
    · simp [hall, loadsStored_of_imp]
    · simp [ih hx.1.1.2 hl]
  | noBranch _ ih =>
    simp only [Tree.stores, Tree.loadsStored, List.mem_append, not_or, Bool.and_eq_true,
      Bool.false_or] at hx hl
    simp only [Tree.storesSurely, Tree.loadsStored]
    rcases loadsStored_behind hx.1.1.1 hl.2.2 with hall | hl
    · simp [hall, loadsStored_of_imp]
    · simp [ih hx.1.2 hl]

end

end Tree

/-! ## Evaluation of merged statements -/

namespace Evaluation

open Steps

variable {V E M : Type} {I : Interpretation V E} {K : Keeping V M} {fuel : Nat} {t : Tree}
  {x : LocalId}

theorem compute_withStore (t : Tree) (store : Option LocalId) :
    compute I K fuel (t.withStore store) = compute I K fuel t := by
  cases t <;> simp [Tree.withStore, Tree.withTag, compute, Tree.tag]

theorem runAll_append (ts us : List Tree) : runAll I K fuel (ts ++ us) = (do
    runAll I K fuel ts
    runAll I K fuel us) := by
  induction ts with
  | nil =>
    funext run
    rw [List.nil_append, bind_of_ok (runAll_nil fuel run)]
  | cons t rest ih => simp only [List.cons_append, runAll_cons, ih, bind_assoc]

/-- What a tree that loads a local first does after that, and that it does not look at the local
again. -/
structure Resumes (I : Interpretation V E) (fuel : Nat) (x : LocalId) (t t' value : Tree)
    (k : Option V → Evaluation V E (LocalId → V) (Option V)) : Prop where
  loaded : eval I separate fuel t = (do let v ← read separate x; k (some v))
  replaced : eval I separate fuel t' = compute I separate fuel value >>= k
  blind : ∀ v, Respects (AgreeOff {x}) (k v)

theorem blind_eval (hx : x ∉ t.loads) : Respects (AgreeOff {x}) (eval I separate fuel t) :=
  (steady_agreeOff {x}).eval t (fun _ hz hzx => hx (hzx ▸ hz)) fun _ _ => trivial

theorem blind_computeAll {ts : List Tree} (hx : x ∉ Tree.loadsAll ts) :
    Respects (AgreeOff {x}) (computeAll I separate fuel ts) :=
  (steady_agreeOff {x}).computeAll (fun _ hz hzx => hx (hzx ▸ hz)) fun _ _ => trivial

theorem Resumes.andThen {t' a a' value : Tree}
    {k g : Option V → Evaluation V E (LocalId → V) (Option V)} (h : Resumes I fuel x a a' value k)
    (ht : eval I separate fuel t = eval I separate fuel a >>= g)
    (ht' : eval I separate fuel t' = eval I separate fuel a' >>= g)
    (hg : ∀ v, Respects (AgreeOff {x}) (g v)) : Resumes I fuel x t t' value fun v => k v >>= g where
  loaded := by rw [ht, h.loaded, bind_assoc]
  replaced := by rw [ht', h.replaced, bind_assoc]
  blind := fun v => .bind (h.blind v) hg

/-- Nothing happens before the first load. -/
theorem resumes (h : t.LoadsFirst x) (hx : x ∉ t.loads.tail) (I : Interpretation V E) (fuel : Nat)
    (value : Tree) : ∃ k, Resumes I fuel x t (Tree.replaceFirstLoad value t) value k := by
  have hsteady := steady_agreeOff (V := V) (E := E) {x}
  induction h with
  | @load tag =>
    refine ⟨settle separate tag.store, ?_, ?_, hsteady.settle fun _ _ => trivial⟩
    · simp only [eval, compute, bind_assoc, pure_bind, Tree.store, Tree.tag]
    · rw [eval, Tree.replaceFirstLoad, compute_withStore, Tree.store_withStore]
  | @operator t f a rest hf hops ha ih =>
    rw [Tree.loads_operator hf, hops, Tree.loadsAll, ha.tail_loads_append, List.mem_append,
      not_or] at hx
    obtain ⟨k, hk⟩ := ih hx.1
    refine ⟨_, hk.andThen (g := fun v => do
      let vs ← computeAll I separate fuel rest
      let vs ← given separate (a.store :: rest.map Tree.store) (v :: vs)
      let v ← perform I f.operation vs
      settle separate t.store (if f.yields then some v else none)) ?_ ?_ fun v => ?_⟩
    · simp only [eval, compute_operator hf, operate, hops, computeAll, bind_assoc, pure_bind,
        List.map_cons]
    · simp only [eval, compute_operator (Tree.replaceFirstLoad_operator hf hops),
        operate, computeAll, bind_assoc, pure_bind, List.map_cons, Tree.store_replaceFirstLoad]
    · exact .bind (blind_computeAll hx.2) fun _ => .bind (Steady.given _ _ _) fun _ =>
        .bind (hsteady.perform I _ _) fun v => hsteady.settle (fun _ _ => trivial) _
  | @seq tag a rest ha ih =>
    rw [Tree.loads, Tree.loadsAll, ha.tail_loads_append, List.mem_append, not_or] at hx
    obtain ⟨k, hk⟩ := ih hx.1
    refine ⟨_, hk.andThen (g := fun _ => do
      runAll I separate fuel rest
      pure none) ?_ ?_ fun v => ?_⟩
    · rw [eval_seq, runAll_cons, bind_assoc]
    · rw [Tree.replaceFirstLoad, Tree.replaceFirstLoadOf, eval_seq, runAll_cons, bind_assoc]
    · exact .bind (.bind (blind_computeAll hx.2) fun _ => .pure fun _ _ h => h)
        fun _ => .pure fun _ _ h => h
  | @ifThen tag c y hc ih =>
    rw [Tree.loads, hc.tail_loads_append, List.mem_append, not_or] at hx
    obtain ⟨k, hk⟩ := ih hx.1
    refine ⟨_, hk.andThen (eval_ifThen fuel tag c y) (eval_ifThen fuel tag _ y) fun v => ?_⟩
    exact hsteady.chosen (Steady.discarded (blind_eval hx.2)) (.pure fun _ _ h => h) I v
  | @ifElse tag c y n hc ih =>
    rw [Tree.loads, List.append_assoc, hc.tail_loads_append, List.mem_append,
      List.mem_append, not_or, not_or] at hx
    obtain ⟨k, hk⟩ := ih hx.1
    refine ⟨_, hk.andThen (eval_ifElse fuel tag c y n) (eval_ifElse fuel tag _ y n) fun v => ?_⟩
    exact hsteady.chosen (Steady.discarded (blind_eval hx.2.1))
      (Steady.discarded (blind_eval hx.2.2)) I v
  | @retValue tag v hv ih =>
    obtain ⟨k, hk⟩ := ih hx
    exact ⟨_, hk.andThen (eval_retValue fuel tag v) (eval_retValue fuel tag _) fun a =>
      .throw fun _ _ h => h⟩

/-- A statement and the next one that loads what it stored do what the merged statement does. -/
theorem eval_merged {previous statement : Tree} (hv : (previous.withStore none).Supplies)
    (hs : previous.store = some x) (hl : statement.LoadsFirst x) (hx : x ∉ previous.loads)
    (hx' : x ∉ statement.loads.tail) (hx'' : x ∉ (previous.withStore none).stores) :
    Simulates (AgreeOff {x})
      (do
        let _ ← eval I separate fuel previous
        eval I separate fuel statement)
      (eval I separate fuel (Tree.replaceFirstLoad (previous.withStore none) statement))
      (fun _ => AgreeOff {x}) (AgreeOff {x}) := by
  obtain ⟨k, hk⟩ := resumes hl hx' I fuel (previous.withStore none)
  have hcompute : Respects (AgreeOff (E := E) {x})
      (eval I separate fuel (previous.withStore none)) :=
    blind_eval (by simpa)
  have hvalue : eval I separate fuel (previous.withStore none) = compute I separate fuel
      previous := by
    rw [eval_eq_compute (Tree.store_withStore _ _), compute_withStore]
  rw [hvalue] at hcompute
  intro r₁ r₂ hr
  have h := hcompute r₁ r₂ hr
  rw [hk.replaced, compute_withStore, eval, hs, bind_assoc, bind_apply, bind_apply]
  generalize ha : compute I separate fuel previous r₁ = a,
    compute I separate fuel previous r₂ = b at h
  cases h with
  | error h => exact .error h
  | @ok a r₁' r₂' h =>
    have hsome : a.isSome = true := by
      rcases hv.yields with hy | hsure
      · exact isSome_of_yields ((Tree.yields_withStore _ _).symm.trans hy) ha
      · have hnot := not_storesSurely_of_ok (hvalue ▸ ha) hx''
        rw [hsure x] at hnot
        cases hnot
    -- The value goes through the cell of the local on one side and directly on the other.
    obtain ⟨v, rfl⟩ := Option.isSome_iff_exists.mp hsome
    show Alike _ _ (eval I separate fuel statement _) (k (some v) r₂')
    rw [hk.loaded]
    have hread : ∀ run : Run V E (LocalId → V), run.memory x = v →
        (do let v ← read separate x; k (some v)) run =
          k (some v) { run with reads := run.reads ++ [(x, v)] } := by
      rintro run rfl
      rfl
    rw [hread _ (by simp [separate])]
    refine hk.blind (some v) _ _ ⟨h.events, fun z hz => ?_⟩
    show Function.update r₁'.memory x v z = r₂'.memory z
    rw [Function.update_of_ne (fun hzx => hz hzx)]
    exact h.memory z hz

/-- A fact that holds where two runs stand may be used from there on. -/
theorem Simulates.given {M₁ M₂ α : Type} {P : Run V E M₁ → Run V E M₂ → Prop} {p : Prop}
    {y : Evaluation V E M₁ α} {y' : Evaluation V E M₂ α} {Q : α → Run V E M₁ → Run V E M₂ → Prop}
    {F : Run V E M₁ → Run V E M₂ → Prop} (h : p → Simulates P y y' Q F) :
    Simulates (fun r₁ r₂ => P r₁ r₂ ∧ p) y y' Q F :=
  fun r₁ r₂ hr => h hr.2 r₁ r₂ hr.1

/-- A part that does not mention the local goes by, and if it comes to its end, it has not stored
into the local for sure. -/
theorem blind_eval_open (hl : x ∉ t.loads) (hs : x ∉ t.stores) :
    Simulates (AgreeOff {x}) (eval I separate fuel t) (eval I separate fuel t)
      (fun _ r₁ r₂ => AgreeOff {x} r₁ r₂ ∧ t.storesSurely x = false) (AgreeOff {x}) := by
  intro r₁ r₂ hr
  have h : Alike (fun _ => AgreeOff {x}) (AgreeOff {x}) (eval I separate fuel t r₁)
      (eval I separate fuel t r₂) := blind_eval hl r₁ r₂ hr
  generalize ha : eval I separate fuel t r₁ = a, eval I separate fuel t r₂ = b at h
  cases h with
  | error h => exact .error h
  | ok h => exact .ok ⟨h, not_storesSurely_of_ok ha hs⟩

theorem blind_runAll {ts : List Tree} (hx : x ∉ Tree.loadsAll ts) :
    Respects (AgreeOff {x}) (runAll I separate fuel ts) :=
  .bind (blind_computeAll hx) fun _ => .pure fun _ _ h => h

theorem blind_runAll_open {ts : List Tree} (hl : x ∉ Tree.loadsAll ts)
    (hs : x ∉ Tree.storesAll ts) :
    Simulates (AgreeOff {x}) (runAll I separate fuel ts) (runAll I separate fuel ts)
      (fun _ r₁ r₂ => AgreeOff {x} r₁ r₂ ∧ Tree.storesSurelyAll x ts = false) (AgreeOff {x}) := by
  induction ts with
  | nil => exact .bind (.pure fun _ _ h => h) fun _ => .pure fun _ _ h => ⟨h, rfl⟩
  | cons t rest ih =>
    rw [Tree.loadsAll, List.mem_append, not_or] at hl
    rw [Tree.storesAll, List.mem_append, not_or] at hs
    rw [runAll_cons]
    refine .bind (blind_eval_open hl.1 hs.1) fun _ => .given fun hopen => ?_
    rw [Tree.storesSurelyAll, hopen, Bool.false_or]
    exact ih hl.2 hs.2

open Codewright.Tree in
/-- A merge of a local that is not mentioned any more keeps events, result and the other locals. -/
theorem merge_simulates {t' : Tree} (h : t.Merge x t') (hx : x ∉ t'.mentions)
    (hst : t.loadsStored x false = true) (I : Interpretation V E) (fuel : Nat) :
    Simulates (AgreeOff {x}) (eval I separate fuel t) (eval I separate fuel t')
      (fun _ => AgreeOff {x}) (AgreeOff {x}) := by
  rw [mem_mentions, not_or] at hx
  obtain ⟨hx, hs⟩ := hx
  have hsteady := steady_agreeOff (V := V) (E := E) {x}
  induction h with
  | @here tag before after previous statement hstore hl =>
    obtain ⟨rest, hloads, hloads'⟩ := hl.loads (previous.withStore none)
    simp only [loads, loadsAll_append, loadsAll, hloads', loads_withStore, stores,
      storesAll_append, storesAll,
      hl.stores, withStore_withStore, loadsStored, loadsStoredAll_append, loadsStoredAll,
        List.mem_append, not_or,
      Bool.and_eq_true, Bool.false_or] at hx hs hst
    obtain ⟨hbefore, ⟨hprevious, hrest⟩, hafter⟩ := hx
    obtain ⟨⟨hbefore', ⟨hvalue, -⟩, -⟩, -⟩ := hs
    rw [eval_seq, eval_seq, runAll_append, runAll_append, runAll_cons, runAll_cons, runAll_cons]
    refine .bind (.bind (blind_runAll_open hbefore hbefore') fun _ => .given fun hopen => ?_)
      fun _ => .pure fun _ _ h => h
    -- What comes before has come to its end, so it is `previous` that stores for sure.
    have hsure := hl.stored hst.2.2.1
    rw [hopen, Bool.false_or] at hsure
    rw [← bind_assoc]
    refine .bind (eval_merged (supplies_of_storesSurely hstore hvalue hsure) hstore hl hprevious ?_
      hvalue) fun _ => blind_runAll hafter
    rwa [hloads, List.tail_cons]
  | @inside tag before after t t' _ ih =>
    simp only [loads, loadsAll_append, loadsAll, stores, storesAll_append, storesAll, loadsStored,
      loadsStoredAll_append, loadsStoredAll, List.mem_append, not_or, Bool.and_eq_true,
        Bool.false_or] at hx hs hst
    obtain ⟨hbefore, hinner, hafter⟩ := hx
    obtain ⟨⟨hbefore', hinner', -⟩, -⟩ := hs
    rw [eval_seq, eval_seq, runAll_append, runAll_append, runAll_cons, runAll_cons]
    refine .bind (.bind (blind_runAll_open hbefore hbefore') fun _ => .given fun hopen => ?_)
      fun _ => .pure fun _ _ h => h
    rw [hopen] at hst
    exact .bind (ih hst.2.1 hinner hinner') fun _ => blind_runAll hafter
  | @thenBranch tag c y y' _ ih =>
    simp only [loads, stores, loadsStored, List.mem_append, not_or, Bool.and_eq_true,
      Bool.false_or] at hx hs hst
    rw [eval_ifThen, eval_ifThen]
    refine .bind (blind_eval_open hx.1 hs.1.1) fun v => .given fun hopen => ?_
    rw [hopen] at hst
    exact hsteady.chosen (Steady.discarded (ih hst.2 hx.2 hs.1.2)) (.pure fun _ _ h => h) I v
  | @yesBranch tag c y y' n _ ih =>
    simp only [loads, stores, loadsStored, List.mem_append, not_or, Bool.and_eq_true,
      Bool.false_or] at hx hs hst
    rw [eval_ifElse, eval_ifElse]
    refine .bind (blind_eval_open hx.1.1 hs.1.1.1) fun v => .given fun hopen => ?_
    rw [hopen] at hst
    exact hsteady.chosen (Steady.discarded (ih hst.2.1 hx.1.2 hs.1.1.2))
      (Steady.discarded (blind_eval hx.2)) I v
  | @noBranch tag c y n n' _ ih =>
    simp only [loads, stores, loadsStored, List.mem_append, not_or, Bool.and_eq_true,
      Bool.false_or] at hx hs hst
    rw [eval_ifElse, eval_ifElse]
    refine .bind (blind_eval_open hx.1.1 hs.1.1.1) fun v => .given fun hopen => ?_
    rw [hopen] at hst
    exact hsteady.chosen (Steady.discarded (blind_eval hx.1.2))
      (Steady.discarded (ih hst.2.2 hx.2 hs.1.2)) I v
  | @body tag c b b' _ ih =>
    simp only [loads, stores, loadsStored, List.mem_append, not_or, Bool.and_eq_true,
      Bool.false_or] at hx hs hst
    rw [eval_loop, eval_loop]
    -- The test has come to its end when the body begins, in every round.
    refine .bind (.rounds (T := fun _ r₁ r₂ => AgreeOff {x} r₁ r₂ ∧ c.storesSurely x = false)
      (fun _ _ h => h) ?_ (.given fun hopen => ?_) fuel) fun _ => .pure fun _ _ h => h.1
    · refine .bind (blind_eval_open hx.1 hs.1.1) fun v => .given fun hopen => ?_
      exact (hsteady.decided I v).mono (fun _ _ h => h) fun _ _ _ h => ⟨h, hopen⟩
    · rw [hopen] at hst
      exact ih hst.2 hx.2 hs.1.2

end Evaluation

namespace Tree

/-! ## Chains of merges -/

/-- What is needed to merge statements of a tree: the table counts, and no local but a parameter is
loaded before it is stored into. -/
structure Mergeable (t : Tree) (locals : Locals) : Prop where
  counted : t.Counted locals
  loadsStored : ∀ x l, locals[x]? = some l → l.isParameter = false → t.loadsStored x false = true

/-- The locals that are in use by one table and dead by a later one. -/
def leftBehind (before after : Locals) : Set LocalId :=
  {x | ∃ l l', before[x]? = some l ∧ after[x]? = some l' ∧ l.isDead = false ∧ l'.isDead = true}

instance (before after : Locals) (x : LocalId) : Decidable (x ∈ leftBehind before after) :=
  decidable_of_iff ((before[x]?.any (!·.isDead)) = true ∧ (after[x]?.any (·.isDead)) = true) <| by
    simp only [Option.any_eq_true, Bool.not_eq_true', leftBehind, Set.mem_ofPred_eq]
    exact ⟨fun ⟨⟨l, hl, hlive⟩, l', hl', hdead⟩ => ⟨l, l', hl, hl', hlive, hdead⟩,
      fun ⟨l, l', hl, hl', hlive, hdead⟩ => ⟨⟨l, hl, hlive⟩, l', hl', hdead⟩⟩

section

variable {p q : Locals × Tree}

open Relation (ReflTransGen)

theorem MergeStep.mergeable (h : MergeStep p q) (hp : p.2.Mergeable p.1) : q.2.Mergeable q.1 := by
  obtain ⟨x, l, hl, hparam, ha, hu, hm, heq⟩ := h
  rw [heq]
  refine ⟨hp.counted.merge hm, fun y l' hl' hparam' => ?_⟩
  have hx := hp.counted.not_mentioned hm hl ha hu
  by_cases hyx : y = x
  · subst hyx
    exact loadsStored_of_imp fun hy => absurd (mem_mentions.mpr (.inl hy)) hx
  · rw [getElem?_forget, if_neg fun hxy => hyx hxy.symm] at hl'
    rw [(hm.loadsStored (fun hs => hx (mem_mentions.mpr (.inr hs)))
      (hp.loadsStored x l hl hparam) hyx).2]
    exact hp.loadsStored y l' hl' hparam'

theorem merges_mergeable (h : ReflTransGen MergeStep p q) (hp : p.2.Mergeable p.1) :
    q.2.Mergeable q.1 := by
  induction h with
  | refl => exact hp
  | tail _ hstep ih => exact hstep.mergeable ih

/-- After merges every entry of the table is as before, or its counts have gone to zero. -/
theorem merges_entry (h : ReflTransGen MergeStep p q) (y : LocalId) : q.1[y]? = p.1[y]? ∨
    ∃ l, p.1[y]? = some l ∧ l.isParameter = false ∧ l.isDead = false ∧
      q.1[y]? = some { l with assignments := 0, uses := 0 } := by
  induction h with
  | refl => exact .inl rfl
  | tail _ hstep ih =>
    obtain ⟨x, l, hl, hparam, ha, hu, -, heq⟩ := hstep
    rw [heq, getElem?_forget]
    by_cases hxy : x = y
    · subst hxy
      rw [if_pos rfl, hl, Option.map_some, ha, hu]
      rcases ih with hsame | ⟨l₀, -, -, -, hl₀⟩
      · exact .inr ⟨l, hsame ▸ hl, hparam, by simp [Local.isDead, ha], rfl⟩
      · -- A local that has gone is not merged again.
        rw [Option.some.inj (hl.symm.trans hl₀)] at ha
        cases ha
    · rw [if_neg hxy]
      exact ih

theorem leftBehind_forget (h : ReflTransGen MergeStep p q) {x : LocalId} {l : Local}
    (hl : q.1[x]? = some l) (ha : l.assignments = 1) (hu : l.uses = 1) :
    leftBehind p.1 (forget q.1 x) = insert x (leftBehind p.1 q.1) := by
  ext y
  rw [leftBehind, Set.mem_ofPred_eq, getElem?_forget, Set.mem_insert_iff]
  by_cases hxy : x = y
  · subst hxy
    refine ⟨fun _ => .inl rfl, fun _ => ?_⟩
    rcases merges_entry h x with hsame | ⟨l₀, -, -, -, hl₀⟩
    · refine ⟨l, { l with assignments := 0, uses := 0 }, hsame ▸ hl,
        ?_, by simp [Local.isDead, ha], rfl⟩
      rw [if_pos rfl, hl, Option.map_some, ha, hu]
    · rw [Option.some.inj (hl.symm.trans hl₀)] at ha
      cases ha
  · rw [if_neg hxy, or_iff_right fun hyx => hxy hyx.symm]
    rfl

end

end Tree

namespace Evaluation

open Relation (ReflTransGen)

variable {V E : Type}

theorem AgreeOff.trans {R₁ R₂ R : Set LocalId} {r₁ r₂ r₃ : Run V E (LocalId → V)}
    (h₁ : AgreeOff R₁ r₁ r₂) (h₂ : AgreeOff R₂ r₂ r₃) (hR₁ : R₁ ⊆ R) (hR₂ : R₂ ⊆ R) :
    AgreeOff R r₁ r₃ :=
  ⟨h₁.events.trans h₂.events, fun z hz =>
    (h₁.memory z fun h => hz (hR₁ h)).trans (h₂.memory z fun h => hz (hR₂ h))⟩

/-- Merges keep events, result and all locals that are not left behind. -/
theorem merges_alike {p q : Locals × Tree} (h : ReflTransGen Tree.MergeStep p q)
    (hp : p.2.Mergeable p.1) (I : Interpretation V E) (fuel : Nat) (run : Run V E (LocalId → V)) :
    Alike (fun _ => AgreeOff (Tree.leftBehind p.1 q.1)) (AgreeOff (Tree.leftBehind p.1 q.1))
      (eval I separate fuel p.2 run) (eval I separate fuel q.2 run) := by
  induction h with
  | refl => exact .refl (fun _ _ => ⟨rfl, fun _ _ => rfl⟩) (fun _ => ⟨rfl, fun _ _ => rfl⟩) _
  | @tail q r hmore hstep ih =>
    have hq := Tree.merges_mergeable hmore hp
    obtain ⟨x, l, hl, hparam, ha, hu, hm, heq⟩ := hstep
    have hx := hq.counted.not_mentioned hm hl ha hu
    have hsim := merge_simulates hm hx (hq.loadsStored x l hl hparam) I fuel run run
      ⟨rfl, fun _ _ => rfl⟩
    rw [heq, Tree.leftBehind_forget hmore hl ha hu]
    have hsub : {x} ⊆ insert x (Tree.leftBehind p.1 q.1) := Set.singleton_subset_iff.mpr (.inl rfl)
    exact ih.trans hsim
      (fun _ _ _ _ h₁ h₂ => h₁.trans h₂ (Set.subset_insert _ _) hsub)
      fun _ _ _ h₁ h₂ => h₁.trans h₂ (Set.subset_insert _ _) hsub

end Evaluation

namespace Routine

variable {r : Routine} {V E : Type}

/-- The locals that the removal of single uses takes out of use. -/
def removedLocals (r : Routine) : Set LocalId :=
  Tree.leftBehind r.locals r.removeSingleUses.1.locals

theorem mergeable (hc : r.body.Counted r.locals) (hl : r.LoadsStored) :
    r.body.Mergeable r.locals where
  counted := hc
  loadsStored := fun x l hx hparam => hl x fun ⟨l', hx', hparam'⟩ => by
    rw [Option.some.inj (hx'.symm.trans hx), hparam] at hparam'
    cases hparam'

open Evaluation

/-- Removing single uses keeps the meaning of a routine that counts its loads and stores and loads
nothing before it is stored into, whatever its nodes are. The locals that go are no parameters and
are not mentioned any more; and from any memory, a run of what is left meets the same events, ends
in the same way with the same result, or does not end either, and leaves the same value in every
other local. -/
theorem removal_keeps_runs (r : Routine) (hc : r.body.Counted r.locals) (hl : r.LoadsStored) :
    (∀ x ∈ r.removedLocals, x ∉ r.parameters ∧ x ∉ r.removeSingleUses.1.body.mentions) ∧
    ∀ (V E : Type) (I : Interpretation V E) (fuel : Nat) (run : Run V E (LocalId → V)),
      Alike (fun _ => AgreeOff r.removedLocals) (AgreeOff r.removedLocals)
        (eval I separate fuel r.body run) (eval I separate fuel r.removeSingleUses.1.body run) := by
  have hchain := Tree.merges_removeSingleUses r.body { locals := r.locals }
  have hm := mergeable hc hl
  refine ⟨?_, fun V E I fuel run => merges_alike hchain hm I fuel run⟩
  rintro x ⟨l, l', hx, hx', hlive, hdead⟩
  refine ⟨?_, (Tree.merges_mergeable hchain hm).counted.not_mentioned_of_isDead hx' hdead⟩
  rcases Tree.merges_entry hchain x with hsame | ⟨l₀, hx₀, hparam, -, -⟩
  · rw [Option.some.inj (hx'.symm.trans (hsame.trans hx)), hlive] at hdead
    cases hdead
  · rintro ⟨l₁, hx₁, hparam'⟩
    rw [Option.some.inj (hx₁.symm.trans hx₀), hparam] at hparam'
    cases hparam'

/-- Three single uses, two in a chain and one in a loop, beside a local that an operand stores
into. -/
def chained : Routine where
  id := 0
  fullName := "main.f"
  locals := #[
    { name := "$result", ty := .int },
    { name := "p", ty := .int, uses := 2, isParameter := true },
    { name := "t", ty := .int, assignments := 1, uses := 1 },
    { name := "u", ty := .int, assignments := 1, uses := 1 },
    { name := "w", ty := .int, assignments := 2, uses := 5 },
    { name := "v", ty := .int, assignments := 1, uses := 1 }]
  paramCount := 1
  body := .seq { ty := .void } [
    .call { ty := .int, store := some 2 } 7 [.load { ty := .int } 1],
    .binary { ty := .int, store := some 3 } .add (.load { ty := .int } 2)
      (.const { ty := .int, store := some 4 } (.int 2)),
    .ifThen { ty := .void } (.binary { ty := .bool } .lt (.load { ty := .int } 3)
      (.load { ty := .int } 4)) (.print { ty := .void } [.load { ty := .int } 4]),
    .loop { ty := .void } (.binary { ty := .bool } .lt (.load { ty := .int } 4)
      (.load { ty := .int } 1)) (.seq { ty := .void } [
        .load { ty := .int, store := some 5 } 4,
        .binary { ty := .int, store := some 4 } .add (.load { ty := .int } 5)
          (.const { ty := .int } (.int 1))]),
    .retValue { ty := .void } (.load { ty := .int } 4)]

/-- All three go, and the local that an operand stores into keeps its value. -/
theorem removal_keeps_runs_chained :
    chained.body.Counted chained.locals ∧ chained.LoadsStored ∧ chained.removeSingleUses.2 = 3 ∧
    (∀ x ∈ [2, 3, 5], x ∈ chained.removedLocals) ∧ 4 ∉ chained.removedLocals ∧
    ∀ (I : Interpretation Int Unit) (fuel : Nat) (n : Int),
      Alike (fun _ => AgreeOff chained.removedLocals) (AgreeOff chained.removedLocals)
        (eval I separate fuel chained.body { memory := fun _ => n })
        (eval I separate fuel chained.removeSingleUses.1.body { memory := fun _ => n }) := by
  refine ⟨by decide, by decide, by decide, ?_, ?_, fun I fuel n => ?_⟩
  · unfold removedLocals
    decide
  · unfold removedLocals
    decide
  · exact (removal_keeps_runs chained (by decide) (by decide)).2 Int Unit I fuel _

/-- Removing single uses keeps events and result of a routine that has been built. -/
theorem Built.eval_removeSingleUses {symbols : Symbols} {I : Interpretation V E}
    (h : r.Built symbols) (fuel : Nat) (run : Run V E (LocalId → V)) :
    Alike (fun _ => SameEvents) SameEvents (eval I separate fuel r.body run)
      (eval I separate fuel r.removeSingleUses.1.body run) :=
  (merges_alike (Tree.merges_removeSingleUses r.body { locals := r.locals })
    (mergeable h.counted h.toWellScoped.loadsStored) I fuel run).mono (fun _ _ _ h => h.events)
    fun _ _ h => h.events

end Routine

end Codewright
