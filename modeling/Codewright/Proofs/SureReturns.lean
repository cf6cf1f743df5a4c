import Codewright.Proofs.Bytecode.Correctness
import Codewright.Proofs.Labels

/-!
# Sure returns

While a function is built, each statement is flagged with whether it returns for sure. The tree of a
flagged statement never comes to its end, whatever calls, conditions and loops do, so a function
with a result does not run into the end of its body. Behind a flagged statement of a block nothing
is reached: a place there is `Dead`, and no run comes to it or depends on what stands there. A
function with a result is refused for a missing return exactly if nothing else is wrong with it and
no statement of its body is flagged.
-/

namespace Codewright

open Source (Span)
open Steps

/-! ## Trees that never complete -/

namespace Tree

/-- Evaluation does not come to the end of the tree, whatever the surroundings do. -/
def NeverCompletes (t : Tree) : Prop :=
  ∀ {V E M : Type} (I : Interpretation V E) (K : Keeping V M) (fuel : Nat) (run : Run V E M)
    (v : Option V) (run' : Run V E M), Evaluation.eval I K fuel t run ≠ .ok v run'

/-- What returns on every path does not come to its end. -/
theorem neverCompletes_of_returns {t : Tree} (h : t.returns = true) : t.NeverCompletes :=
  fun _ _ _ run v run' => Evaluation.eval_ne_ok h run v run'

/-- The tree of the statement with a number in that of another one. -/
def child? : Tree → Nat → Option Tree
  | .seq _ body, i => body[i]?
  | .ifThen _ _ yes, 0 => some yes
  | .ifElse _ _ yes _, 0 => some yes
  | .ifElse _ _ _ no, 1 => some no
  | .loop _ _ body, 0 => some body
  | _, _ => none

/-- The tree of the statement at a place. -/
def at? : Tree → List Nat → Option Tree
  | t, [] => some t
  | t, i :: place => (t.child? i).bind fun u => u.at? place

/-- The tree with another one in the place of a statement. -/
def replace : Tree → List Nat → Tree → Tree
  | _, [], u => u
  | .seq tag body, i :: place, u => .seq tag (body.modify i fun t => t.replace place u)
  | .ifThen tag c yes, 0 :: place, u => .ifThen tag c (yes.replace place u)
  | .ifElse tag c yes no, 0 :: place, u => .ifElse tag c (yes.replace place u) no
  | .ifElse tag c yes no, 1 :: place, u => .ifElse tag c yes (no.replace place u)
  | .loop tag c body, 0 :: place, u => .loop tag c (body.replace place u)
  | t, _ :: _, _ => t

/-- On the way to a place there is a block in which an earlier statement never completes. -/
inductive Dead : Tree → List Nat → Prop
  | cut {tag : Tag} {body : List Tree} {i j : Nat} {t : Tree} {place : List Nat} (hj : j < i)
    (ht : body[j]? = some t) (hends : t.NeverCompletes) : Dead (.seq tag body) (i :: place)
  | inside {t u : Tree} {i : Nat} {place : List Nat} (hu : t.child? i = some u) (h : Dead u place) :
    Dead t (i :: place)

end Tree

namespace Evaluation

section

variable {V E M : Type}

/-- Evaluation of a tree from a run comes to the statement at a place. -/
inductive Reaches (I : Interpretation V E) (K : Keeping V M) (fuel : Nat) :
    Tree → Run V E M → List Nat → Run V E M → Prop
  | here (t : Tree) (run : Run V E M) : Reaches I K fuel t run [] run
  | seq {tag : Tag} {body : List Tree} {i : Nat} {t : Tree} {place : List Nat}
    {run run₁ run' : Run V E M}
    (hbefore : runAll I K fuel (body.take i) run = .ok () run₁) (ht : body[i]? = some t)
    (h : Reaches I K fuel t run₁ place run') :
      Reaches I K fuel (.seq tag body) run (i :: place) run'
  | ifThen {tag : Tag} {c yes : Tree} {place : List Nat} {run run₁ run' : Run V E M}
    (hc : (eval I K fuel c >>= decided I) run = .ok true run₁)
    (h : Reaches I K fuel yes run₁ place run') :
    Reaches I K fuel (.ifThen tag c yes) run (0 :: place) run'
  | yes {tag : Tag} {c yes no : Tree} {place : List Nat} {run run₁ run' : Run V E M}
    (hc : (eval I K fuel c >>= decided I) run = .ok true run₁)
    (h : Reaches I K fuel yes run₁ place run') :
    Reaches I K fuel (.ifElse tag c yes no) run (0 :: place) run'
  | no {tag : Tag} {c yes no : Tree} {place : List Nat} {run run₁ run' : Run V E M}
    (hc : (eval I K fuel c >>= decided I) run = .ok false run₁)
    (h : Reaches I K fuel no run₁ place run') :
    Reaches I K fuel (.ifElse tag c yes no) run (1 :: place) run'
  /-- In the round at hand. -/
  | round {tag : Tag} {c body : Tree} {place : List Nat} {run run₁ run' : Run V E M}
    (hc : (eval I K fuel c >>= decided I) run = .ok true run₁)
    (h : Reaches I K fuel body run₁ place run') :
    Reaches I K fuel (.loop tag c body) run (0 :: place) run'
  /-- In a later round. -/
  | again {tag : Tag} {c body : Tree} {v : Option V} {i : Nat} {place : List Nat}
    {run run₁ run₂ run' : Run V E M} (hc : (eval I K fuel c >>= decided I) run = .ok true run₁)
    (hbody : eval I K fuel body run₁ = .ok v run₂)
    (h : Reaches I K fuel (.loop tag c body) run₂ (i :: place) run') :
    Reaches I K fuel (.loop tag c body) run (i :: place) run'

variable {I : Interpretation V E} {K : Keeping V M} {fuel : Nat} {t u : Tree} {place : List Nat}

/-- No run comes to a dead place. -/
theorem not_reaches_of_dead {run run' : Run V E M} (hdead : t.Dead place) :
    ¬ Reaches I K fuel t run place run' := by
  intro h
  -- on how the place is reached; in a later round of a loop it is the same place again
  induction h with
  | here => cases hdead
  | @seq tag body i t place run run₁ run' hbefore ht _ ih =>
    cases hdead with
    | @cut _ _ _ j u _ hj hu hends =>
      have hmem : u ∈ body.take i := List.mem_of_getElem? ((List.getElem?_take_of_lt hj).trans hu)
      exact runAll_ne_ok hmem (hends I K fuel) hbefore
    | inside hu hdead =>
      obtain rfl := Option.some.inj (ht.symm.trans hu)
      exact ih hdead
  | ifThen _ _ ih | yes _ _ ih | no _ _ ih | round _ _ ih =>
    cases hdead with
    | inside hu hdead =>
      obtain rfl := Option.some.inj hu
      exact ih hdead
  | again _ _ _ ih => exact ih hdead

/-- Another statement that runs the same leaves the run of a block as it is. -/
theorem runAll_modify {body : List Tree} {i : Nat} {f : Tree → Tree}
    (h : ∀ t, body[i]? = some t → (eval I K fuel (f t) : Evaluation V E M _) = eval I K fuel t) :
    (runAll I K fuel (body.modify i f) : Evaluation V E M Unit) = runAll I K fuel body := by
  induction body generalizing i with
  | nil => rw [List.modify_nil]
  | cons t rest ih =>
    cases i with
    | zero => rw [List.modify_zero_cons, runAll_cons, runAll_cons, h t rfl]
    | succ i => rw [List.modify_succ_cons, runAll_cons, runAll_cons, ih h]

/-- Behind a statement that never completes anything may stand. -/
theorem runAll_modify_of_neverCompletes {body : List Tree} {i j : Nat} (hj : j < i)
    (ht : body[j]? = some t) (hends : t.NeverCompletes) (f : Tree → Tree) :
    (runAll I K fuel (body.modify i f) : Evaluation V E M Unit) = runAll I K fuel body := by
  have hmem : t ∈ body.take i := List.mem_of_getElem? ((List.getElem?_take_of_lt hj).trans ht)
  have hbody : (runAll I K fuel body : Evaluation V E M Unit) =
      runAll I K fuel (body.take i) >>= fun _ => runAll I K fuel (body.drop i) := by
    rw [← runAll_append, List.take_append_drop]
  funext run
  rw [List.modify_eq_take_drop, runAll_append, hbody, bind_apply, bind_apply]
  cases hrun : runAll I K fuel (body.take i) run with
  | ok _ run' => exact absurd hrun (runAll_ne_ok hmem (hends I K fuel))
  | error => rfl

/-- What stands at a dead place does not matter for any run. -/
theorem eval_replace_of_dead (hdead : t.Dead place) (u : Tree) :
    (eval I K fuel (t.replace place u) : Evaluation V E M _) = eval I K fuel t := by
  induction hdead with
  | cut hj ht hends =>
    rw [Tree.replace, eval_seq, eval_seq, runAll_modify_of_neverCompletes hj ht hends]
  | @inside t v i place hv _ ih =>
    cases t with
    | seq tag body =>
      have hat : ∀ t, body[i]? = some t → (eval I K fuel (t.replace place u) : Evaluation V E M _) =
          eval I K fuel t := by
        intro t ht
        obtain rfl := Option.some.inj (ht.symm.trans hv)
        exact ih
      rw [Tree.replace, eval_seq, eval_seq, runAll_modify hat]
    | ifThen tag c yes =>
      match i with
      | 0 =>
        obtain rfl : yes = v := Option.some.inj hv
        rw [Tree.replace, eval_ifThen, eval_ifThen, ih]
      | i + 1 => cases hv
    | ifElse tag c yes no =>
      match i with
      | 0 =>
        obtain rfl : yes = v := Option.some.inj hv
        rw [Tree.replace, eval_ifElse, eval_ifElse, ih]
      | 1 =>
        obtain rfl : no = v := Option.some.inj hv
        rw [Tree.replace, eval_ifElse, eval_ifElse, ih]
      | i + 2 => cases hv
    | loop tag c body =>
      match i with
      | 0 =>
        obtain rfl : body = v := Option.some.inj hv
        rw [Tree.replace, eval_loop, eval_loop, ih]
      | i + 1 => cases hv
    | _ => cases hv

end

end Evaluation

/-! ## Trees of statements -/

namespace Build

open Surface (Expr Stmt)

section

variable {ctx : Context} {stmt c : Stmt} {body : List Stmt} {t : Tree} {s s' : State}
  {place : List Nat}

/-- The tree is what a statement is built into, and the flag is as the syntax tells. -/
def Gives (ctx : Context) (stmt : Surface.Stmt) (t : Tree) : Prop :=
  ∃ s s', statement ctx stmt s = .ok (t, stmt.returns) s'

/-- The flag of a statement that has been built is as the syntax tells. -/
theorem gives_of_ok {flag : Bool} (h : statement ctx stmt s = .ok (t, flag) s') :
    Gives ctx stmt t := by
  obtain ⟨hflag, -⟩ := (notes_statement ctx stmt).ok h
  obtain rfl : flag = stmt.returns := hflag
  exact ⟨s, s', h⟩

theorem gives_of_inBlock {r : Tree × Bool} (h : inBlock (statement ctx stmt) s = .ok r s') :
    Gives ctx stmt r.1 := by
  obtain ⟨s₁, h, -⟩ := inBlock_eq_ok.mp h
  exact gives_of_ok h

/-- Each statement of a block gives its own tree. -/
theorem gives_statements {done : List Tree} {returns noted flag : Bool}
    (h : statements ctx done returns noted body s = .ok (t, flag) s') :
    ∃ ts, t = .ofStatements (done.reverse ++ ts) ∧ List.Forall₂ (Gives ctx) body ts := by
  induction body generalizing done returns noted s with
  | nil =>
    rw [statements] at h
    obtain ⟨heq, -⟩ := pure_eq_ok.mp h
    cases heq
    exact ⟨[], by rw [List.append_nil], .nil⟩
  | cons stmt rest ih =>
    obtain ⟨_, a, f, s₁, hstmt, hrest⟩ := statements_cons_ok h
    obtain ⟨ts, rfl, hts⟩ := ih hrest
    exact ⟨a :: ts, by simp, .cons (gives_of_ok hstmt) hts⟩

theorem Gives.block {span : Span} (h : Gives ctx (.block body span) t) :
    ∃ ts, t = .ofStatements ts ∧ List.Forall₂ (Gives ctx) body ts := by
  obtain ⟨s, s', h⟩ := h
  rw [statement] at h
  obtain ⟨s₁, h, -⟩ := inBlock_eq_ok.mp h
  exact gives_statements h

/-- The tree of a condition and of the one statement that depends on it. -/
theorem gives_branch {x : Step Tree} {make : Tree → Tree → Tree} {flag : Bool}
    (h : (do
      let c ← x
      let (y, _) ← inBlock (statement ctx stmt)
      return (make c y, false)) s = .ok (t, flag) s') :
    ∃ c y, t = make c y ∧ Gives ctx stmt y := by
  obtain ⟨c, s₁, -, h⟩ := bind_eq_ok.mp h
  obtain ⟨y, s₂, hy, h⟩ := bind_eq_ok.mp h
  obtain ⟨heq, -⟩ := pure_eq_ok.mp h
  exact ⟨c, y.1, (Prod.mk.inj heq).1.symm, gives_of_inBlock hy⟩

theorem Gives.ifElse {e : Expr} {yes no : Stmt} {span : Span}
    (h : Gives ctx (.ifElse e yes no span) t) :
    ∃ tag c y n, t = .ifElse tag c y n ∧ Gives ctx yes y ∧ Gives ctx no n := by
  obtain ⟨s, s', h⟩ := h
  rw [statement] at h
  obtain ⟨c, s₁, -, h⟩ := bind_eq_ok.mp h
  obtain ⟨y, s₂, hy, h⟩ := bind_eq_ok.mp h
  obtain ⟨n, s₃, hn, h⟩ := bind_eq_ok.mp h
  obtain ⟨heq, -⟩ := pure_eq_ok.mp h
  exact ⟨_, c, y.1, n.1, (Prod.mk.inj heq).1.symm, gives_of_inBlock hy, gives_of_inBlock hn⟩

theorem exists_getElem?_of_forall₂ {ts : List Tree} (h : List.Forall₂ (Gives ctx) body ts) {i : Nat}
    (hc : body[i]? = some c) : ∃ u, ts[i]? = some u ∧ Gives ctx c u := by
  induction h generalizing i with
  | nil => cases hc
  | @cons stmt u rest us hu _ ih =>
    cases i with
    | zero =>
      obtain rfl : stmt = c := Option.some.inj hc
      exact ⟨u, rfl, hu⟩
    | succ i => exact ih hc

/-- The statements in a statement have their trees at the same numbers. -/
theorem Gives.child (h : Gives ctx stmt t) {i : Nat} (hc : stmt.child? i = some c) :
    ∃ u, t.child? i = some u ∧ Gives ctx c u := by
  cases stmt with
  | block body span =>
    obtain ⟨ts, rfl, hts⟩ := h.block
    exact exists_getElem?_of_forall₂ hts hc
  | ifThen e inner span | loop e inner span =>
    obtain ⟨s, s', h⟩ := h
    rw [statement] at h
    obtain ⟨c', b, rfl, hb⟩ := gives_branch h
    match i with
    | 0 =>
      obtain rfl : inner = c := Option.some.inj hc
      exact ⟨b, rfl, hb⟩
    | i + 1 => cases hc
  | ifElse e yes no span =>
    obtain ⟨tag, c', y, n, rfl, hy, hn⟩ := h.ifElse
    match i with
    | 0 =>
      obtain rfl : yes = c := Option.some.inj hc
      exact ⟨y, rfl, hy⟩
    | 1 =>
      obtain rfl : no = c := Option.some.inj hc
      exact ⟨n, rfl, hn⟩
    | i + 2 => cases hc
  | assign | ret | expr => cases hc

/-- The statements at all places have their trees there. -/
theorem Gives.atPlace (h : Gives ctx stmt t) (hat : stmt.at? place = some c) :
    ∃ u, t.at? place = some u ∧ Gives ctx c u := by
  induction place generalizing stmt t with
  | nil =>
    obtain rfl : stmt = c := Option.some.inj hat
    exact ⟨t, rfl, h⟩
  | cons i place ih =>
    obtain ⟨stmt', hchild, hat⟩ := Option.bind_eq_some_iff.mp hat
    obtain ⟨t', hchild', h'⟩ := h.child hchild
    obtain ⟨u, hu, hgives⟩ := ih h' hat
    exact ⟨u, by rw [Tree.at?, hchild', Option.bind_some, hu], hgives⟩

/-- The tree of a flagged statement returns on every path. -/
theorem Gives.returns (h : Gives ctx stmt t) (hreturns : stmt.returns = true) :
    t.returns = true := by
  obtain ⟨s, s', h⟩ := h
  rw [hreturns] at h
  exact (built_statement stmt h).2 rfl

/-- A labelled statement is dead in the tree. -/
theorem Gives.dead (h : Gives ctx stmt t) (hlabelled : stmt.Labelled place c) : t.Dead place := by
  induction hlabelled generalizing t with
  | here _ hfirst =>
    obtain ⟨ts, rfl, hts⟩ := h.block
    obtain ⟨j, hj, stmt, hstmt, hreturns⟩ := hfirst.1
    obtain ⟨u, hu, hgives⟩ := exists_getElem?_of_forall₂ hts hstmt
    exact .cut hj hu (Tree.neverCompletes_of_returns (hgives.returns hreturns))
  | inside hc _ ih =>
    obtain ⟨u, hu, hgives⟩ := h.child hc
    exact .inside hu (ih hgives)

end

/-- The parameters and the body of a function, before it is asked whether the function returns. -/
def content (ctx : Context) (f : Surface.Function) : Step (Tree × Bool) := do
  f.params.forM (declareParameter ctx)
  statement ctx f.whole

/-- The state in which a function is begun. -/
def start (symbol : FunctionSymbol) : State :=
  { locals := #[{ name := "$result", ty := symbol.result }] }

section

variable {ctx : Context} {f : Surface.Function} {symbol : FunctionSymbol} {s s' : State}

/-- The content of a function is refused for a fault of one of its parts. -/
theorem ofPart_of_content {e : SemanticError} (h : content ctx f s = .error e s') : e.OfPart := by
  have hagree : Agrees (fun _ _ => True) Eq (content ctx f) _ :=
    (Agree.forM (agree_declareParameter ctx)).bind fun _ _ _ =>
      agree_statement ctx (fun _ _ _ _ => trivial) f.whole
  obtain ⟨_, _, ⟨hpart, -⟩, -⟩ := hagree.of_error (t := s) ⟨rfl, rfl, trivial⟩ h
  exact hpart

/-- A function is its content and the question whether it returns. -/
theorem routine_eq (ctx : Context) (symbol : FunctionSymbol) (f : Surface.Function) :
    routine ctx symbol f = content ctx f >>= fun (body, returns) => do
      if !returns && symbol.result ≠ .void then
        throw (.returnNotGuaranteed f.name symbol.result f.body.span)
      return {
        id := symbol.id
        fullName := symbol.fullName
        locals := (← get).locals
        paramCount := f.params.length
        body := if returns then body else closed body } := by
  rw [routine, content, bind_assoc]
  simp only [Surface.Function.whole, statement]

/-- What becomes of a function whose content is there: it is refused if it has a result and may run
into its end. -/
theorem routine_of_content {t : Tree} {flag : Bool} (h : content ctx f s = .ok (t, flag) s') :
    (flag = false ∧ symbol.result ≠ .void ∧
      routine ctx symbol f s = .error (.returnNotGuaranteed f.name symbol.result f.body.span) s') ∨
    ((flag = true ∨ symbol.result = .void) ∧
      ∃ r : Routine, routine ctx symbol f s = .ok r s' ∧
          r.body = if flag then t else closed t) := by
  rw [routine_eq, bind_of_ok h]
  dsimp only
  by_cases hguard : (!flag && decide (symbol.result ≠ .void)) = true
  · rw [if_pos hguard]
    obtain ⟨hflag, hvoid⟩ := Bool.and_eq_true_iff.mp hguard
    exact .inl ⟨(Bool.not_eq_true' _).mp hflag, of_decide_eq_true hvoid, rfl⟩
  · rw [if_neg hguard]
    refine .inr ⟨?_, _, rfl, rfl⟩
    cases flag with
    | true => exact .inl rfl
    | false => exact .inr (by simpa using hguard)

/-- The flag of the content is that of the body as a whole. -/
theorem gives_of_content {t : Tree} {flag : Bool} (h : content ctx f s = .ok (t, flag) s') :
    Gives ctx f.whole t ∧ flag = f.whole.returns := by
  obtain ⟨_, s₁, -, h⟩ := bind_eq_ok.mp h
  exact ⟨gives_of_ok h, ((notes_statement ctx f.whole).ok h).1⟩

end

end Build

section

variable {symbols : Symbols} {m : String} {f : Surface.Function} {symbol : FunctionSymbol}

/-- No part of a function is refused with the code of a missing return. -/
theorem SemanticError.OfPart.code_ne {e : SemanticError} (h : e.OfPart) :
    e.report.code ≠ some .returnNotGuaranteed := by
  have hcode : e.report.code = some e.gist.1 := congrArg (·.2.1) e.gist_report
  rw [hcode, Ne, Option.some_inj]
  cases e with
  | returnNotGuaranteed => exact h.elim
  | operands op fault span =>
    simp only [gist]
    cases fault <;> simp only [OperandFault.code] <;> decide
  | _ =>
    simp only [gist]
    decide

/-- What becomes of a function: it is refused for a reason in its content, or for a missing return,
or it is accepted with the body that it gives, to which a return is added if it may run into its
end. -/
theorem buildRoutine_cases (hsymbol : symbols.function? (fullName m f.name) = some symbol) :
    (∃ e s, Build.content ⟨symbols, foldName m⟩ f (Build.start symbol) = .error e s ∧
      (buildRoutine symbols m f).1 = .error e) ∨
    ∃ t s, Build.content ⟨symbols, foldName m⟩ f (Build.start symbol) = .ok (t, f.whole.returns) s ∧
      (f.whole.returns = false ∧ symbol.result ≠ .void ∧ (buildRoutine symbols m f).1 =
        .error (.returnNotGuaranteed f.name symbol.result f.body.span) ∨
      (f.whole.returns = true ∨ symbol.result = .void) ∧ ∃ r, (buildRoutine symbols m f).1 = .ok r ∧
        r.body = if f.whole.returns then t else Build.closed t) := by
  unfold buildRoutine EStateM.run
  simp only [hsymbol]
  rw [← Build.start]
  cases hcontent : Build.content ⟨symbols, foldName m⟩ f (Build.start symbol) with
  | error e s =>
    rw [Build.routine_eq, Steps.bind_apply, hcontent]
    exact .inl ⟨e, s, rfl, rfl⟩
  | ok r s =>
    obtain ⟨t, flag⟩ := r
    obtain ⟨-, rfl⟩ := Build.gives_of_content hcontent
    refine .inr ⟨t, s, rfl, ?_⟩
    rcases Build.routine_of_content hcontent with ⟨hreturns, hvoid, h⟩ | ⟨hreturns, r, h, hbody⟩
    · rw [h]
      exact .inl ⟨hreturns, hvoid, rfl⟩
    · rw [h]
      exact .inr ⟨hreturns, r, rfl, hbody⟩

/-- Refused for a missing return: the content is there, and the function may run into its end. -/
theorem refused_iff (hsymbol : symbols.function? (fullName m f.name) = some symbol) :
    (∃ e, (buildRoutine symbols m f).1 = .error e ∧ e.report.code = some .returnNotGuaranteed) ↔
      symbol.result ≠ .void ∧ f.whole.returns = false ∧
        ∃ t flag s, Build.content ⟨symbols, foldName m⟩ f (Build.start symbol) =
            .ok (t, flag) s := by
  rcases buildRoutine_cases hsymbol with ⟨e, s, hcontent, h⟩ |
    ⟨t, s, hcontent, ⟨hreturns, hvoid, h⟩ | ⟨hreturns, r, h, -⟩⟩
  · constructor
    · -- the content is asked for other things only
      rintro ⟨e', he', hcode⟩
      obtain rfl : e = e' := Except.error.inj (h.symm.trans he')
      exact absurd hcode (Build.ofPart_of_content hcontent).code_ne
    · rintro ⟨-, -, t, flag, s', hok⟩
      cases hcontent.symm.trans hok
  · exact ⟨fun _ => ⟨hvoid, hreturns, t, _, s, hcontent⟩, fun _ => ⟨_, h, rfl⟩⟩
  · constructor
    · rintro ⟨e, he, -⟩
      cases h.symm.trans he
    · rintro ⟨hvoid, hfalse, -⟩
      rcases hreturns with htrue | hresult
      · rw [hfalse] at htrue
        cases htrue
      · exact absurd hresult hvoid

/-- The body of an accepted function: it has the trees of the statements at their places, returns on
every path and is dead where a statement is labelled. -/
structure Accepted (ctx : Build.Context) (f : Surface.Function) (body : Tree) : Prop where
  at?_eq : ∀ place s, place ≠ [] → f.whole.at? place = some s →
    ∃ t, body.at? place = some t ∧ Build.Gives ctx s t
  returns : body.returns = true
  dead : ∀ place s, f.whole.Labelled place s → body.Dead place

theorem accepted_of_gives {ctx : Build.Context} {t : Tree} (h : Build.Gives ctx f.whole t)
    (hreturns : f.whole.returns = true) : Accepted ctx f t where
  at?_eq _ _ _ hat := h.atPlace hat
  returns := h.returns hreturns
  dead _ _ hlabelled := h.dead hlabelled

/-- The added return comes last and leaves all places as they are. -/
theorem accepted_closed {ctx : Build.Context} {t : Tree} (h : Build.Gives ctx f.whole t) :
    Accepted ctx f (Build.closed t) := by
  obtain ⟨ts, rfl, -⟩ := h.block
  have hkeep : ∀ {i u}, ts[i]? = some u → (ts ++ [.ret { ty := .void }])[i]? = some u :=
      fun hu => by
    rw [List.getElem?_append_left (List.getElem?_eq_some_iff.mp hu).1, hu]
  refine ⟨fun place s hplace hat => ?_, ?_, fun place s hlabelled => ?_⟩
  · obtain ⟨u, hu, hgives⟩ := h.atPlace hat
    cases place with
    | nil => exact absurd rfl hplace
    | cons i place =>
      obtain ⟨v, hv, hu⟩ := Option.bind_eq_some_iff.mp hu
      exact ⟨u, Option.bind_eq_some_iff.mpr ⟨v, hkeep hv, hu⟩, hgives⟩
  · simp [Build.closed, Tree.ofStatements, Tree.returns, Tree.anyReturns_iff]
  · cases h.dead hlabelled with
    | cut hj ht hends => exact .cut hj (hkeep ht) hends
    | inside hu hdead => exact .inside (hkeep hu) hdead

/-- What is known of the body of an accepted function. -/
theorem accepted_of_buildRoutine {r : Routine}
    (hsymbol : symbols.function? (fullName m f.name) = some symbol)
    (h : (buildRoutine symbols m f).1 = .ok r) :
    Accepted ⟨symbols, foldName m⟩ f r.body ∧ (symbol.result ≠ .void →
      f.whole.returns = true ∧ Build.Gives ⟨symbols, foldName m⟩ f.whole r.body) := by
  rcases buildRoutine_cases hsymbol with ⟨e, s, -, he⟩ |
    ⟨t, s, hcontent, ⟨-, -, he⟩ | ⟨hreturns, r', hr', hbody⟩⟩
  · cases h.symm.trans he
  · cases h.symm.trans he
  · obtain rfl : r = r' := Except.ok.inj (h.symm.trans hr')
    obtain ⟨hgives, -⟩ := Build.gives_of_content hcontent
    rw [hbody]
    cases hwhole : f.whole.returns with
    | true => exact ⟨accepted_of_gives hgives hwhole, fun _ => ⟨rfl, hgives⟩⟩
    | false =>
      rw [hwhole, or_iff_right Bool.false_ne_true] at hreturns
      exact ⟨accepted_closed hgives, fun hvoid => absurd hreturns hvoid⟩

/-- The places that are noted of an accepted function are those of the labelled statements. -/
theorem labels_of_buildRoutine {r : Routine} {spans : List Span}
    (h : buildRoutine symbols m f = (.ok r, spans)) :
    ∃ labels : List (List Nat × Surface.Stmt), spans = labels.map (·.2.span) ∧
      labels.Pairwise (fun l l' => l.1 < l'.1) ∧
      ∀ place s, (place, s) ∈ labels ↔ f.whole.Labelled place s := by
  obtain ⟨labels, hstmts, horder, hmem⟩ := f.whole.lists_unreachable
  have hunreachable : f.whole.unreachable = f.unreachable := by
    rw [Surface.Function.whole, Surface.Stmt.unreachable, Surface.Function.unreachable]
  refine ⟨labels, ?_, horder, hmem⟩
  rw [noted_of_buildRoutine_ok h, ← hunreachable, ← hstmts, List.map_map]
  rfl

/-- When the body as a whole is not flagged. -/
theorem whole_returns_eq_false_iff : f.whole.returns = false ↔ ∀ s ∈ f.body.body,
    (∀ v span, s ≠ .ret v span) ∧ (∀ body span, s = .block body span → s.returns = false) ∧
      ∀ c yes no span, s = .ifElse c yes no span → ¬ (yes.returns = true ∧ no.returns = true) := by
  have hwhole : f.whole.returns = Surface.Stmt.anyReturns f.body.body := by
    rw [Surface.Function.whole, Surface.Stmt.returns]
  rw [hwhole, ← Bool.not_eq_true, Surface.Stmt.anyReturns_iff]
  simp only [not_exists, not_and, Bool.not_eq_true]
  refine forall₂_congr fun s _ => ?_
  cases s with
  | ret v span => simp [Surface.Stmt.returns]
  | block body span => simp
  | ifElse c yes no span =>
    simp only [Surface.Stmt.returns, Bool.and_eq_false_imp]
    constructor
    · intro h
      refine ⟨fun _ _ hs => (by cases hs), fun _ _ hs => (by cases hs), fun _ _ _ _ hs => ?_⟩
      cases hs
      exact h
    · exact fun h => h.2.2 c yes no span rfl
  | _ => simp [Surface.Stmt.returns]

end

/-- In an accepted function each statement has its tree at its place, and that of a flagged one
never completes; neither does the body, to which nothing is added if the function has a result. The
places that are noted are, in the order of the text, those of the statements that are the first of
their block to follow a flagged one, one for each block that has such a statement. No run reaches
them, and whatever else stood there, every run would be the same. A function with a result is
refused for a missing return exactly if its content is built and no statement of its body is a
return, a flagged block, or an `if` with two flagged branches. -/
theorem sure_returns_sound_and_exact (symbols : Symbols) (m : String) (f : Surface.Function)
    (symbol : FunctionSymbol) (hsymbol : symbols.function? (fullName m f.name) = some symbol) :
    (∀ r spans, buildRoutine symbols m f = (.ok r, spans) →
      (∀ place s, place ≠ [] → f.whole.at? place = some s → ∃ t, r.body.at? place = some t ∧
        Build.Gives ⟨symbols, foldName m⟩ s t ∧ (s.returns = true → t.NeverCompletes)) ∧
      r.body.NeverCompletes ∧
      (symbol.result ≠ .void →
        f.whole.returns = true ∧ Build.Gives ⟨symbols, foldName m⟩ f.whole r.body) ∧
      ∃ labels : List (List Nat × Surface.Stmt),
        spans = labels.map (·.2.span) ∧ labels.Pairwise (fun l l' => l.1 < l'.1) ∧
        (∀ place s, (place, s) ∈ labels ↔ ∃ outer body span i, place = outer ++ [i] ∧
          f.whole.at? outer = some (.block body span) ∧ body[i]? = some s ∧
          Surface.Stmt.FollowsFirst body i) ∧
        (∀ outer body span, f.whole.at? outer = some (.block body span) →
          (∃ i < body.length, Surface.Stmt.Follows body i) → ∃! l, l ∈ labels ∧
            ∃ i, l.1 = outer ++ [i]) ∧
        ∀ l ∈ labels, ∀ {V E M : Type} (I : Interpretation V E) (K : Keeping V M) (fuel : Nat)
          (run : Run V E M), (∀ run', ¬ Evaluation.Reaches I K fuel r.body run l.1 run') ∧
          ∀ u, Evaluation.eval I K fuel (r.body.replace l.1 u) run =
            Evaluation.eval I K fuel r.body run) ∧
    ((∃ e, (buildRoutine symbols m f).1 = .error e ∧ e.report.code = some .returnNotGuaranteed) ↔
      symbol.result ≠ .void ∧
      (∃ t flag s, Build.content ⟨symbols, foldName m⟩ f (Build.start symbol) = .ok (t, flag) s) ∧
      ∀ s ∈ f.body.body, (∀ v span, s ≠ .ret v span) ∧
        (∀ body span, s = .block body span → s.returns = false) ∧
        ∀ c yes no span, s = .ifElse c yes no span →
            ¬ (yes.returns = true ∧ no.returns = true)) := by
  constructor
  · intro r spans h
    obtain ⟨haccepted, hresult⟩ := accepted_of_buildRoutine hsymbol (congrArg Prod.fst h)
    obtain ⟨labels, hspans, horder, hmem⟩ := labels_of_buildRoutine h
    refine ⟨fun place s hplace hat => ?_, Tree.neverCompletes_of_returns haccepted.returns,
      hresult, labels,
      hspans, horder, fun place s => (hmem place s).trans Surface.Stmt.labelled_iff_block,
      fun outer body span hat ⟨i, hi, hfollows⟩ =>
        Surface.Stmt.existsUnique_label hmem hat hi hfollows,
      fun l hl V E M I K fuel run => ?_⟩
    · obtain ⟨t, ht, hgives⟩ := haccepted.at?_eq place s hplace hat
      exact ⟨t, ht, hgives, fun hreturns =>
        Tree.neverCompletes_of_returns (hgives.returns hreturns)⟩
    · have hdead := haccepted.dead l.1 l.2 ((hmem l.1 l.2).mp hl)
      exact ⟨fun run' => Evaluation.not_reaches_of_dead hdead, fun u =>
        congrFun (Evaluation.eval_replace_of_dead hdead u) run⟩
  · rw [refused_iff hsymbol, whole_returns_eq_false_iff]
    exact and_congr_right fun _ => and_comm

namespace Branching

/-- `return n`, on line `n`. -/
def returnOf (n : Nat) : Surface.Stmt :=
  .ret (some (.literal (.int (.ofNat n)) (Returning.place n))) (Returning.place n)

/-- The function with this body and no parameters. -/
def functionOf (body : List Surface.Stmt) : Surface.Function where
  name := "main"
  isPublic := true
  result := .int
  params := []
  body := { body, span := default }
  span := default

/-- The symbols of a program that is this function alone. -/
abbrev symbolsOf (body : List Surface.Stmt) : Symbols := .alone (functionOf body)

/-- `if true begin return 1 return 2 end begin return 3 end return 4` -/
def closedBody : List Surface.Stmt :=
  [.ifThen (.literal (.bool true) default) (.block [returnOf 1, returnOf 2] default) default,
    .block [returnOf 3] default, returnOf 4]

/-- `if true return 1` -/
def openBody : List Surface.Stmt := [.ifThen (.literal (.bool true) default) (returnOf 1) default]

/-- The second and the fourth `return` are noted. -/
theorem buildRoutine_closedBody :
    ∃ r, buildRoutine (symbolsOf closedBody) "main" (functionOf closedBody) =
    (.ok r, [Returning.place 2, Returning.place 4]) := by
  have hcontent : ∃ t s, Build.content ⟨symbolsOf closedBody, foldName "main"⟩
      (functionOf closedBody) (Build.start (functionSymbol 0 "main" (functionOf closedBody))) =
      .ok (t, true) s :=
    ⟨_, _, rfl⟩
  obtain ⟨t, s, hcontent⟩ := hcontent
  have hreturns : (functionOf closedBody).whole.returns = true := rfl
  rcases buildRoutine_cases (Symbols.function?_alone (functionOf closedBody)) with
    ⟨e, s', herror, -⟩ | ⟨t', s', -, ⟨hfalse, -⟩ | ⟨-, r, hr, -⟩⟩
  · cases hcontent.symm.trans herror
  · cases hreturns.symm.trans hfalse
  · have hspans := noted_of_buildRoutine_ok (Prod.ext hr rfl)
    exact ⟨r, Prod.ext hr hspans⟩

theorem content_openBody : ∃ t flag s,
    Build.content ⟨symbolsOf openBody, foldName "main"⟩ (functionOf openBody)
      (Build.start (functionSymbol 0 "main" (functionOf openBody))) = .ok (t, flag) s :=
  ⟨_, _, _, rfl⟩

end Branching

/-- The `return` behind another one in a branch is not reached. A function that returns in one
branch only is refused. -/
theorem sure_returns_sound_and_exact_branching :
    (∃ r, buildRoutine (Branching.symbolsOf Branching.closedBody) "main"
        (Branching.functionOf Branching.closedBody) =
        (.ok r, [Returning.place 2, Returning.place 4]) ∧ r.body.NeverCompletes ∧
      ∀ {V E M : Type} (I : Interpretation V E) (K : Keeping V M) (fuel : Nat)
        (run run' : Run V E M),
        ¬ Evaluation.Reaches I K fuel r.body run [0, 0, 1] run') ∧
    ∃ e, (buildRoutine (Branching.symbolsOf Branching.openBody) "main"
        (Branching.functionOf Branching.openBody)).1 = .error e ∧
      e.report.code = some .returnNotGuaranteed := by
  constructor
  · obtain ⟨r, hr⟩ := Branching.buildRoutine_closedBody
    obtain ⟨haccepted, -⟩ := sure_returns_sound_and_exact _ "main" _ _
      (Symbols.function?_alone _)
    obtain ⟨-, hends, -, labels, -, -, hmem, -, hlabels⟩ := haccepted r _ hr
    have hlabel : ([0, 0, 1], Branching.returnOf 2) ∈ labels :=
      (hmem _ _).mpr ⟨[0, 0], _, _, 1, rfl, rfl, rfl,
        (Surface.Stmt.followsFirst_cons_of_returns rfl).mpr rfl⟩
    exact ⟨r, hr, hends, fun I K fuel run => (hlabels _ hlabel I K fuel run).1⟩
  · obtain ⟨-, hrefused⟩ := sure_returns_sound_and_exact _ "main" _ _
      (Symbols.function?_alone _)
    have hresult :
        (functionSymbol 0 "main" (Branching.functionOf Branching.openBody)).result ≠ .void := by
      intro h
      cases h
    refine hrefused.mpr ⟨hresult, Branching.content_openBody, ?_⟩
    exact whole_returns_eq_false_iff.mp rfl

end Codewright
