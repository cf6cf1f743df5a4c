import Codewright.Proofs.Surface.Recovery

/-!
# The attempts at a module

Reading a module is a row of attempts: at the header, at each import and at each declaration. An
attempt either reads its part, or it fails at some token and reading goes on behind that token. Here
the attempts are listed (`attempts`) apart from the module that is put together on the way. Every
attempt leaves fewer tokens, so there is an end to them, and the failures among them come at later
and later tokens.
-/

namespace Codewright.Surface

open Source (Span)
open Read (Draft)

/-! ## Readers -/

namespace Read

open Reading

/-- What one of the readers of the language makes of some tokens. -/
inductive Outcome : {α : Type} → (ts : List Token) → Reading α ts.length → Prop
  | token (k : Kind) (e : Expectation) (ts : List Token) : Outcome ts (token k e ts)
  | simpleName (e : Expectation) (ts : List Token) : Outcome ts (simpleName e ts)
  | qualifiedName (e : Expectation) (ts : List Token) : Outcome ts (qualifiedName e ts)
  | typeName (ts : List Token) : Outcome ts (typeName ts)
  | expression (ts : List Token) : Outcome ts (expression ts)
  | climb (level : Nat) (ts : List Token) : Outcome ts (climb level ts)
  | unary (ts : List Token) : Outcome ts (unary ts)
  | primary (ts : List Token) : Outcome ts (primary ts)
  | arguments (ts : List Token) : Outcome ts (arguments ts)
  | statement (ts : List Token) : Outcome ts (statement ts)
  | block (ts : List Token) : Outcome ts (block ts)
  | constantValue (ts : List Token) : Outcome ts (constantValue ts)
  | constant (isPublic : Bool) (start : Span) (ts : List Token) :
    Outcome ts (constant isPublic start ts)
  | param (ts : List Token) : Outcome ts (param ts)
  | params (ts : List Token) : Outcome ts (params ts)
  | function (isPublic : Bool) (start : Span) (ts : List Token) :
    Outcome ts (function isPublic start ts)
  | declaration (t : Token) (rest : List Token) : Outcome (t :: rest) (declaration t rest)

theorem suffix_of_suffix_cons {t : Token} {ts rest : List Token} (h : rest <:+ t :: ts)
    (hlt : rest.length < (t :: ts).length) : rest <:+ ts := by
  rcases List.suffix_cons_iff.mp h with rfl | h
  · exact absurd hlt (Nat.lt_irrefl _)
  · exact h

theorem within_of_cons {α : Type} {t : Token} {ts : List Token} {r : Reading α ts.length}
    (h : r.Within (t :: ts)) : r.Within ts := by
  cases r with
  | ok v rest hr => exact suffix_of_suffix_cons h (Nat.lt_succ_of_lt hr)
  | failed e rest hr => exact suffix_of_suffix_cons h (Nat.lt_succ_of_le hr)

theorem Outcome.within {α : Type} {ts : List Token} {r : Reading α ts.length} (h : Outcome ts r) :
    r.Within ts := by
  -- Where the start of a declaration is no region of the tokens, a token is put there.
  cases h with
  | token k e => exact (takes_token k e ts).within fun _ _ h => h.suffix
  | simpleName e => exact (takes_simpleName e ts).within fun _ _ h => h.suffix
  | qualifiedName e => exact (takes_qualifiedName e ts).within fun _ _ ⟨_, _, _, h⟩ => h.suffix
  | typeName =>
    have h := takes_typeName (starts_behind (t := ⟨.eof, default⟩) rfl ts)
    exact within_of_cons (h.within fun _ _ h => h.suffix)
  | expression => exact (takes_expression ts).within fun _ _ ⟨_, _, h⟩ => h.suffix
  | climb level => exact (takes_climb level ts).within fun _ _ ⟨_, _, h⟩ => h.suffix
  | unary => exact (takes_unary ts).within fun _ _ ⟨_, _, h⟩ => h.suffix
  | primary => exact (takes_primary 0 ts).within fun _ _ ⟨_, _, h⟩ => h.suffix
  | arguments => exact (takes_arguments ts).within fun _ _ ⟨_, _, h⟩ => h.suffix
  | statement => exact (takes_statement ts).within fun _ _ ⟨⟨_, _, h⟩, _⟩ => h.suffix
  | block => exact (takes_block ts).within fun _ _ ⟨_, _, h⟩ => h.suffix
  | constantValue => exact (takes_constantValue ts).within fun _ _ ⟨_, _, h⟩ => h.suffix
  | constant isPublic start =>
    have h := takes_constant isPublic (starts_behind (t := ⟨.eof, start⟩) rfl ts)
    exact within_of_cons (h.within fun _ _ ⟨_, _, _, h⟩ => h.suffix)
  | param => exact (takes_param ts).within fun _ _ h => h.suffix
  | params => exact (takes_params ts).within fun _ _ h => h.suffix
  | function isPublic start =>
    have h := takes_function isPublic (starts_behind (t := ⟨.eof, start⟩) rfl ts)
    exact within_of_cons (h.within fun _ _ ⟨_, _, _, h⟩ => h.suffix)
  | declaration t rest => exact (takes_declaration t rest).within fun _ _ ⟨_, _, h⟩ => h.suffix

end Read

/-! ## Attempts -/

namespace Reading

variable {α : Type} {n : Nat}

/-- What was expected and the tokens at the failure, if the reader has failed. -/
def failure? : Reading α n → Option (Expectation × List Token)
  | .ok _ _ _ => none
  | .failed expected rest _ => some (expected, rest)

/-- Where a loop over parts goes on. -/
def onward : Reading α n → List Token
  | .ok _ rest _ => rest
  | .failed _ rest _ => Read.resume rest

theorem failure?_eq_some {r : Reading α n} {f : Expectation × List Token}
    (h : r.failure? = some f) : r.Fails f.1 f.2 := by
  cases r with
  | ok => cases h
  | failed e rest hle =>
    obtain rfl := Option.some.inj h
    exact ⟨hle, rfl⟩

end Reading

/-- The parts of a module, in the order in which they are tried. -/
inductive Part where
  | header
  | imports
  | declarations
  deriving DecidableEq

namespace Part

open Read

/-- The order of the parts, the last one being 0. -/
def rank : Part → Nat
  | .header => 2
  | .imports => 1
  | .declarations => 0

/-- The part behind this one. -/
def next : Part → Part
  | .header => .imports
  | _ => .declarations

/-- The part that is tried after an attempt at this one: there is only one header. -/
def again : Part → Part
  | .header => .imports
  | p => p

/-- A semicolon may close the header and each import. -/
def closed : Part → List Token → List Token
  | .declarations, ts => ts
  | _, ts => skipSemicolon ts

/-- The attempt that is made with the token `t` at the front, if one is. -/
def attempt? (t : Token) (ts : List Token) : Part → Option (Reading Unit (t :: ts).length)
  | .header =>
    if t.kind = .kwModule then some (((qualifiedName .moduleName ts).map fun _ => ()).behind t) else
      none
  | .imports =>
    if t.kind = .kwImport then some (((qualifiedName .importName ts).map fun _ => ()).behind t) else
      none
  | .declarations => if t.kind = .semicolon then none else some ((declaration t ts).map fun _ => ())

theorem closed_length (p : Part) (ts : List Token) : (p.closed ts).length ≤ ts.length := by
  cases p with
  | header | imports => exact skipSemicolon_length ts
  | declarations => exact Nat.le_refl _

theorem closed_onward_lt {α : Type} {n : Nat} (p : Part) (r : Reading α (n + 1)) :
    (p.closed r.onward).length < n + 1 := by
  refine Nat.lt_of_le_of_lt (p.closed_length _) ?_
  cases r with
  | ok value rest hlt => exact hlt
  | failed e rest hle =>
    have := resume_length rest
    show (resume rest).length < n + 1
    omega

end Part

/-- The attempts at a module from a part on, each with its failure if it has failed. -/
def attempts (p : Part) (ts : List Token) : List (Option (Expectation × List Token)) :=
  match ts with
  | [] => []
  | t :: rest =>
    match p.attempt? t rest with
    | some r => r.failure? :: attempts p.again (p.closed r.onward)
    | none => if p = .declarations then attempts p rest else attempts p.next (t :: rest)
termination_by (ts.length, p.rank)
decreasing_by
  · exact Prod.Lex.left _ _ (p.closed_onward_lt r)
  · exact Prod.Lex.left _ _ (Nat.lt_succ_self _)
  · refine Prod.Lex.right _ ?_
    cases p <;> simp_all [Part.rank, Part.next]

/-! ## Failures -/

section Failures

open Read Reading

variable {p : Part} {t : Token} {ts : List Token} {r : Reading Unit (t :: ts).length}
  {f : Expectation × List Token}

theorem Part.closed_suffix (p : Part) (ts : List Token) : p.closed ts <:+ ts := by
  cases p with
  | header | imports => exact skipSemicolon_suffix ts
  | declarations => exact List.suffix_rfl

theorem Reading.Within.onward {α : Type} {n : Nat} {r : Reading α n} (h : r.Within ts) :
    r.onward <:+ ts := by
  cases r with
  | ok => exact h
  | failed e rest hle => exact (resume_suffix rest).trans h

theorem Part.within_attempt? (h : p.attempt? t ts = some r) : r.Within (t :: ts) := by
  cases p with
  | header | imports =>
    obtain ⟨-, ⟨⟩⟩ := Option.ite_none_right_eq_some.mp h
    exact (within_map.mpr (Outcome.qualifiedName _ ts).within).behind t
  | declarations =>
    obtain ⟨-, ⟨⟩⟩ := Option.ite_none_left_eq_some.mp h
    exact within_map.mpr (Outcome.declaration t ts).within

theorem length_attempts_le (p : Part) (ts : List Token) : (attempts p ts).length ≤ ts.length := by
  fun_induction attempts p ts with
  | case1 => exact Nat.le_refl _
  | case2 p t rest r h ih => exact Nat.succ_le_of_lt (Nat.lt_of_le_of_lt ih (p.closed_onward_lt r))
  | case3 _ _ _ ih => exact Nat.le_succ_of_le ih
  | case4 _ _ _ _ _ ih => exact ih

/-- Attempts fail within the tokens ahead, of which there are some. -/
theorem suffix_of_failure (h : some f ∈ attempts p ts) : ts ≠ [] ∧ f.2 <:+ ts := by
  fun_induction attempts p ts with
  | case1 => cases h
  | case2 p t rest r hr ih =>
    have hwithin := Part.within_attempt? hr
    refine ⟨List.cons_ne_nil _ _, ?_⟩
    rcases List.mem_cons.mp h with hf | h
    · obtain ⟨_, rfl⟩ := failure?_eq_some hf.symm
      exact hwithin
    · exact (ih h).2.trans ((Part.closed_suffix _ _).trans hwithin.onward)
  | case3 t rest _ ih => exact ⟨List.cons_ne_nil _ _, (ih h).2.trans (List.suffix_cons t rest)⟩
  | case4 _ _ _ _ _ ih => exact ih h

/-- Every failure leaves fewer tokens than the ones before. -/
theorem failures_shrink (p : Part) (ts : List Token) :
    (attempts p ts).reduceOption.Pairwise fun f g => g.2.length < f.2.length := by
  fun_induction attempts p ts with
  | case1 => exact .nil
  | case2 p t rest r hr ih =>
    cases r with
    | ok value rest' hlt => exact ih
    | failed e rest' hle =>
      refine .cons (fun g hg => ?_) ih
      -- What is tried after the failure stands behind it.
      obtain ⟨hne, hsuffix⟩ := suffix_of_failure (List.reduceOption_mem_iff.mp hg)
      have hsome := List.length_pos_iff.mpr hne
      have hclosed := p.closed_length (resume rest')
      have hresume := resume_length rest'
      have hle := hsuffix.length_le
      dsimp only [Reading.onward] at hsome hle ⊢
      omega
  | case3 _ _ _ ih => exact ih
  | case4 _ _ _ _ _ ih => exact ih

end Failures

/-! ## Reports -/

section Reports

open Read Reading

variable {p : Part} {t : Token} {ts : List Token} {d : Draft}

/-- What becomes of a draft from a part on. The header comes before all else, on a new draft. -/
def Part.complete (eof : Span) (d : Draft) (ts : List Token) : Part → Draft
  | .header =>
    let (d, ts) := Read.header eof ts
    let (d, ts) := Read.imports eof d ts
    Read.declarations eof d ts
  | .imports =>
    let (d, ts) := Read.imports eof d ts
    Read.declarations eof d ts
  | .declarations => Read.declarations eof d ts

/-- A part that is not tried leaves the draft to the next one. -/
theorem Part.complete_next (hd : p = .header → d = {}) (hp : p ≠ .declarations)
    (h : p.attempt? t ts = none) (eof : Span) :
    p.complete eof d (t :: ts) = p.next.complete eof d (t :: ts) := by
  cases p with
  | header =>
    obtain rfl := hd rfl
    have hk : t.kind ≠ .kwModule := fun hk => by simp [attempt?, hk] at h
    simp only [complete, next, Read.header, after?, if_neg hk]
  | imports =>
    have hk : t.kind ≠ .kwImport := fun hk => by simp [attempt?, hk] at h
    simp only [complete, next]
    rw [Read.imports, if_neg hk]
  | declarations => exact absurd rfl hp

/-- An attempt adds the report on its failure to those of the draft, and no other. -/
theorem Part.complete_again {r : Reading Unit (t :: ts).length} (hd : p = .header → d = {})
    (h : p.attempt? t ts = some r) (eof : Span) :
    ∃ d', p.complete eof d (t :: ts) = p.again.complete eof d' (p.closed r.onward) ∧
      d'.reports = (r.failure?.map fun f => f.1.report (Stream.peek eof f.2)).toList ++
          d.reports := by
  cases p with
  | header =>
    obtain rfl := hd rfl
    obtain ⟨hk, ⟨⟩⟩ := Option.ite_none_right_eq_some.mp h
    simp only [complete, again, Read.header, after?_of_kind hk]
    cases qualifiedName .moduleName ts <;> exact ⟨_, rfl, rfl⟩
  | imports =>
    obtain ⟨hk, ⟨⟩⟩ := Option.ite_none_right_eq_some.mp h
    simp only [complete, again]
    rw [Read.imports, if_pos hk]
    cases qualifiedName .importName ts <;> exact ⟨_, rfl, rfl⟩
  | declarations =>
    obtain ⟨hk, ⟨⟩⟩ := Option.ite_none_left_eq_some.mp h
    simp only [complete, again]
    rw [Read.declarations, if_neg hk]
    cases declaration t ts with
    | ok x rest hlt => exact ⟨_, rfl, by cases x <;> rfl⟩
    | failed e rest hle => exact ⟨_, rfl, rfl⟩

theorem reports_complete (p : Part) (ts : List Token) (hd : p = .header → d = {}) (eof : Span) :
    (p.complete eof d ts).reports =
      ((attempts p ts).reduceOption.map fun f => f.1.report (Stream.peek eof f.2)).reverse ++
        d.reports := by
  fun_induction attempts p ts generalizing d with
  | case1 p =>
    cases p with
    | header =>
      obtain rfl := hd rfl
      simp [Part.complete, Read.header, after?, Read.imports, Read.declarations]
    | imports => simp [Part.complete, Read.imports, Read.declarations]
    | declarations => simp [Part.complete, Read.declarations]
  | case2 p t rest r h ih =>
    obtain ⟨d', hcomplete, hreports⟩ := Part.complete_again hd h eof
    rw [hcomplete, ih (by cases p <;> simp [Part.again]), hreports]
    cases r <;> simp [Reading.failure?, List.reduceOption_cons_of_some,
      List.reduceOption_cons_of_none]
  | case3 t rest h ih =>
    have hk : t.kind = .semicolon := by
      by_contra hk
      simp [Part.attempt?, hk] at h
    rw [← ih fun hp => by cases hp]
    exact congrArg Draft.reports (declarations_semicolon hk)
  | case4 p t rest h hp ih =>
    rw [Part.complete_next hd hp h]
    exact ih fun hnext => by cases p <;> cases hnext

end Reports

/-! ## Places -/

namespace Stream

/-- The tokens up to the end of the file, and the end. -/
def tokens (s : Stream) : List Token := s.ahead ++ [⟨.eof, s.eof⟩]

/-- The place of the front token among all tokens, if these are left. -/
def placeOf (s : Stream) (rest : List Token) : Nat := s.ahead.length - rest.length

theorem getElem?_tokens {s : Stream} {rest : List Token} (h : rest <:+ s.ahead) :
    s.tokens[s.placeOf rest]? = some (peek s.eof rest) := by
  obtain ⟨used, hused⟩ := h
  have hplace : s.placeOf rest = used.length := by
    rw [placeOf, ← hused, List.length_append, Nat.add_sub_cancel]
  rw [hplace, tokens, ← hused, List.append_assoc, List.getElem?_append_right (Nat.le_refl _),
    Nat.sub_self]
  cases rest <;> rfl

end Stream

theorem Expectation.labels_report (e : Expectation) (t : Token) :
    (e.report t).labels.map (·.span) = [t.span] :=
  rfl

/-- Reading goes forward and reports each failure once, for any tokens, whether an end of the file
stands behind them, among them or nowhere; what stands behind the first one is not read.

A reader of the language that succeeds has moved on over one token or more. One that fails stands at
some token, maybe the one at which it has begun, and the report on the failure is labelled with that
token.

A module is read in attempts, of which there are no more than tokens. It has one report for each
failed attempt, labelled with the token at which the attempt has failed, and these tokens come one
behind the other. -/
theorem parsing_progresses_and_reports_once (tokens : List Token) :
    let stream := Stream.ofTokens tokens
    let failures := (attempts .header stream.ahead).reduceOption
    (stream.ahead <+: tokens ∧ ∀ t ∈ stream.ahead, t.kind ≠ .eof) ∧
    (∀ (α : Type) (ts : List Token) (r : Reading α ts.length), ts <:+ stream.ahead →
      Read.Outcome ts r →
      ∃ used rest, ts = used ++ rest ∧
        ((∃ value, r.Gives value rest ∧ used ≠ [] ∧ r.failure? = none) ∨
          ∃ e t, r.Fails e rest ∧ r.failure? = some (e, rest) ∧
            stream.tokens[stream.placeOf rest]? = some t ∧ (e.report t).labels.map (·.span) =
              [t.span])) ∧
    (attempts .header stream.ahead).length ≤ stream.ahead.length ∧
    (parseModule tokens).2.length = (attempts .header stream.ahead).countP Option.isSome ∧
    List.Forall₂ (fun f report => ∃ t, stream.tokens[stream.placeOf f.2]? = some t ∧
        report = f.1.report t ∧ report.labels.map (·.span) = [t.span])
      failures (parseModule tokens).2 ∧
    (failures.map fun f => stream.placeOf f.2).Pairwise (· < ·) := by
  intro stream failures
  have hreports : (parseModule tokens).2 =
      failures.map fun f => f.1.report (Stream.peek stream.eof f.2) := by
    have hcomplete := reports_complete .header stream.ahead (fun _ => rfl) stream.eof
    rw [List.append_nil] at hcomplete
    exact (congrArg List.reverse hcomplete).trans (List.reverse_reverse _)
  have hsuffix : ∀ f ∈ failures, f.2 <:+ stream.ahead := fun f hf =>
    (suffix_of_failure (List.reduceOption_mem_iff.mp hf)).2
  refine ⟨⟨List.takeWhile_prefix _, fun t ht => by simpa using List.mem_takeWhile_imp ht⟩,
    fun α ts r hts hr => ?_, length_attempts_le _ _, ?_, ?_, ?_⟩
  · obtain ⟨used, hused⟩ := hr.within
    refine ⟨used, r.rest, hused.symm, ?_⟩
    cases r with
    | ok value rest hlt =>
      refine .inl ⟨value, ⟨hlt, rfl⟩, ?_, rfl⟩
      rintro rfl
      rw [← hused] at hlt
      exact Nat.lt_irrefl _ hlt
    | failed e rest hle =>
      exact .inr ⟨e, _, ⟨hle, rfl⟩, rfl, Stream.getElem?_tokens (hr.within.trans hts),
        e.labels_report _⟩
  · rw [hreports, List.length_map, List.countP_eq_length_filter]
    exact List.reduceOption_length_eq
  · rw [hreports, List.forall₂_map_right_iff, List.forall₂_same]
    intro f hf
    exact ⟨_, Stream.getElem?_tokens (hsuffix f hf), rfl, f.1.labels_report _⟩
  · rw [List.pairwise_map]
    refine (failures_shrink _ _).imp_of_mem fun {f g} hf _ hlt => ?_
    have hle := (hsuffix f hf).length_le
    unfold Stream.placeOf
    omega

/-- Tokens without an end of the file: the header fails at the semicolon, and the declaration behind
it at the missing end. -/
theorem parsing_progresses_and_reports_once_unended :
    let tokens : List Token := [⟨.kwModule, default⟩, ⟨.semicolon, default⟩, ⟨.kwConst, default⟩]
    let stream := Stream.ofTokens tokens
    ((attempts .header stream.ahead).reduceOption.map fun f => stream.placeOf f.2) = [1, 3] ∧
      (parseModule tokens).2.length = 2 := by
  intro tokens stream
  obtain ⟨-, -, -, hlength, -⟩ := parsing_progresses_and_reports_once tokens
  exact ⟨by cbv, hlength.trans (by cbv)⟩

end Codewright.Surface
