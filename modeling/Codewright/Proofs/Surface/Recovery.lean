import Codewright.Proofs.Surface.Modules

/-!
# Going on after a failure

After a failed header, import or declaration reading goes on at the first place behind the token at
fault where a declaration can start, and what is read there is read as if nothing had failed before
it. The token at fault is passed over even if a declaration starts with it: that declaration loses
its `public`, or is lost.
-/

namespace Codewright.Surface

open Source (Span)
open Read (Declaration Draft)

/-! ## The first start -/

/-- The tokens `rest` begin at the first place in `ts` where a declaration can start; they are none
if there is no such place. -/
structure IsFirstStart (ts rest : List Token) : Prop where
  suffix : rest <:+ ts
  starts : rest ≠ [] → Read.startsDeclaration rest = true
  first : ∀ mid, mid <:+ ts → rest.length < mid.length → Read.startsDeclaration mid = false

section FirstStart

open Read

variable {ts rest : List Token} {t : Token}

theorem isFirstStart_of_starts (h : startsDeclaration ts = true) : IsFirstStart ts ts where
  suffix := List.suffix_rfl
  starts _ := h
  first _ hmid hlt := absurd hmid.length_le (Nat.not_le_of_lt hlt)

/-- A token at which no declaration can start may be passed over. -/
theorem IsFirstStart.cons (hno : startsDeclaration (t :: ts) = false) (h : IsFirstStart ts rest) :
    IsFirstStart (t :: ts) rest where
  suffix := h.suffix.trans (List.suffix_cons t ts)
  starts := h.starts
  first mid hmid hlt := by
    rcases List.suffix_cons_iff.mp hmid with rfl | hmid
    · exact hno
    · exact h.first mid hmid hlt

theorem isFirstStart_toDeclaration (ts : List Token) : IsFirstStart ts (toDeclaration ts) := by
  induction ts with
  | nil =>
    refine ⟨List.suffix_rfl, fun hne => absurd rfl hne, fun mid hmid _ => ?_⟩
    rw [List.suffix_nil.mp hmid]
    rfl
  | cons t ts ih =>
    rw [toDeclaration]
    split
    · next h => exact isFirstStart_of_starts h
    · next h => exact ih.cons (Bool.eq_false_of_not_eq_true h)

/-- Going on behind the token at fault is going on at the first start only if no declaration can
start with that token. -/
theorem isFirstStart_resume_iff : IsFirstStart ts (resume ts) ↔ startsDeclaration ts = false := by
  cases ts with
  | nil => exact iff_of_true (isFirstStart_toDeclaration []) rfl
  | cons t ts =>
    constructor
    · intro h
      exact h.first (t :: ts) List.suffix_rfl (Nat.lt_succ_of_le (resume_length (t :: ts)))
    · intro h
      exact (isFirstStart_toDeclaration ts).cons h

theorem front_of_starts (h : startsDeclaration ts = true) :
    ∃ k, front ts = some k ∧ opensDeclaration k = true := by
  unfold startsDeclaration at h
  split at h
  · exact ⟨_, rfl, rfl⟩
  · exact ⟨_, rfl, rfl⟩
  · exact ⟨_, rfl, rfl⟩
  · cases h

/-- No other token than one that opens declarations stands where reading goes on. -/
theorem front_resume_ne {k : Kind} (hk : opensDeclaration k = false) :
    front (resume ts) ≠ some k := by
  intro hfront
  have hne : resume ts ≠ [] := by
    intro hnil
    rw [hnil] at hfront
    cases hfront
  obtain ⟨k', hfront', hk'⟩ := front_of_starts ((isFirstStart_toDeclaration ts.tail).starts hne)
  obtain rfl := Option.some.inj (hfront.symm.trans hfront')
  rw [hk] at hk'
  cases hk'

end FirstStart

/-! ## The parts of a module after a failure -/

/-- The draft holds the declaration, as public as it is. -/
def Read.Draft.Holds (d : Draft) : Declaration → Prop
  | .constant c => c ∈ d.constants
  | .function f => f ∈ d.functions

section Parts

open Read Reading

variable {eof : Span} {d : Draft} {ts rest behind : List Token} {t : Token} {e : Expectation}
  {x : Declaration}

theorem skipSemicolon_resume (ts : List Token) : skipSemicolon (resume ts) = resume ts := by
  unfold skipSemicolon
  rw [after?_eq_none (front_resume_ne rfl)]

theorem header_failed (hk : t.kind = .kwModule) (h : (qualifiedName .moduleName ts).Fails e rest) :
    header eof (t :: ts) = (Draft.report {} eof e rest, resume rest) := by
  obtain ⟨hle, h⟩ := h
  simp only [header, after?_of_kind hk, h, skipSemicolon_resume]

theorem imports_resume (eof : Span) (d : Draft) (ts : List Token) :
    imports eof d (resume ts) = (d, resume ts) := by
  have hfront : front (resume ts) ≠ some .kwImport := front_resume_ne rfl
  cases hts : resume ts with
  | nil => rw [imports]
  | cons t rest =>
    rw [hts] at hfront
    rw [imports, if_neg fun hk => hfront (congrArg some hk)]

theorem imports_failed (hk : t.kind = .kwImport) (h : (qualifiedName .importName ts).Fails e rest) :
    imports eof d (t :: ts) = (d.report eof e rest, resume rest) := by
  obtain ⟨hle, h⟩ := h
  rw [imports, if_pos hk]
  simp only [h, skipSemicolon_resume, imports_resume]

theorem declarations_failed (hk : t.kind ≠ .semicolon) (h : (declaration t ts).Fails e rest) :
    declarations eof d (t :: ts) = declarations eof (d.report eof e rest) (resume rest) := by
  obtain ⟨hle, h⟩ := h
  rw [declarations, if_neg hk]
  simp only [h]

theorem holds_declarations (h : d.Holds x) : (declarations eof d ts).Holds x := by
  fun_induction declarations eof d ts with
  | case1 => exact h
  | case2 _ _ _ _ _ ih => exact ih h
  | case3 d _ _ _ y _ _ _ ih =>
    refine ih ?_
    cases x <;> cases y <;> simp_all [Draft.declare, Draft.Holds]
  | case4 _ _ _ _ _ _ _ _ _ ih =>
    refine ih ?_
    cases x <;> exact h

/-- A declaration that begins where reading goes on is read, and held from then on. -/
theorem declarations_resume (d : Draft) (hts : resume ts = t :: rest)
    (h : (declaration t rest).Gives x behind) :
    declarations eof d (resume ts) = declarations eof (d.declare x) behind ∧
      (declarations eof d (resume ts)).Holds x := by
  obtain ⟨k, hfront, hk⟩ := front_of_starts
    ((isFirstStart_toDeclaration ts.tail).starts fun hnil =>
      List.cons_ne_nil _ _ (hts.symm.trans hnil))
  obtain rfl : t.kind = k := Option.some.inj ((congrArg front hts).symm.trans hfront)
  rw [hts, declarations_declaration hk h]
  refine ⟨rfl, holds_declarations ?_⟩
  cases x <;> exact List.mem_cons_self

/-- After a failure at `rest` reading goes on at the first place behind the token at fault where a
declaration can start, or at the end of the file; that is the first such place from the token on
only if no declaration can start with the token itself. So it is after a header, an import and a
declaration: the failure is reported, and declarations are read from there on. One that begins there
is read as it is and held to the end. -/
theorem recovery_passes_over_fault (eof : Span) (rest : List Token) :
    IsFirstStart rest.tail (resume rest) ∧
    (IsFirstStart rest (resume rest) ↔ startsDeclaration rest = false) ∧
    (∀ t ts e, t.kind = .kwModule → (qualifiedName .moduleName ts).Fails e rest →
      header eof (t :: ts) = (Draft.report {} eof e rest, resume rest)) ∧
    (∀ d, imports eof d (resume rest) = (d, resume rest)) ∧
    (∀ d t ts e, t.kind = .kwImport → (qualifiedName .importName ts).Fails e rest →
      imports eof d (t :: ts) = (d.report eof e rest, resume rest)) ∧
    (∀ d t ts e, t.kind ≠ .semicolon → (declaration t ts).Fails e rest →
      declarations eof d (t :: ts) = declarations eof (d.report eof e rest) (resume rest)) ∧
    ∀ d t ts x behind, resume rest = t :: ts → (declaration t ts).Gives x behind →
      declarations eof d (resume rest) = declarations eof (d.declare x) behind ∧
      (declarations eof d (resume rest)).Holds x :=
  ⟨isFirstStart_toDeclaration _, isFirstStart_resume_iff, fun _ _ _ hk h => header_failed hk h,
    fun d => imports_resume eof d rest, fun _ _ _ _ hk h => imports_failed hk h,
    fun _ _ _ _ hk h => declarations_failed hk h,
    fun d _ _ _ _ hts h => declarations_resume d hts h⟩

/-- The tokens of a public function without parameters and statements. -/
def publicFunction : List Token :=
  [⟨.kwPublic, default⟩, ⟨.typeName .int, default⟩, ⟨.ident "f", default⟩, ⟨.lparen, default⟩,
    ⟨.rparen, default⟩, ⟨.kwBegin, default⟩, ⟨.kwEnd, default⟩]

/-- Behind a header that fails at its semicolon a public function stays public. -/
theorem recovery_passes_over_fault_header :
    ∃ d x, header default (⟨.kwModule, default⟩ :: ⟨.semicolon, default⟩ :: publicFunction) =
        (d, publicFunction) ∧
      (declaration ⟨.kwPublic, default⟩ publicFunction.tail).Gives (.function x) [] ∧
      x.isPublic = true ∧ (declarations default d publicFunction).Holds (.function x) := by
  obtain ⟨-, -, hheader, -, -, -, hbehind⟩ :=
    recovery_passes_over_fault default (⟨.semicolon, default⟩ :: publicFunction)
  have hfails :
    (qualifiedName .moduleName (⟨.semicolon, default⟩ :: publicFunction)).Fails .moduleName
      (⟨.semicolon, default⟩ :: publicFunction) := ⟨Nat.le_refl _, rfl⟩
  have hgives : (declaration ⟨.kwPublic, default⟩ publicFunction.tail).Gives (.function
      { name := "f", isPublic := true, result := .int, params := [], body := ⟨[], default⟩,
        span := default }) [] := ⟨by decide, by cbv⟩
  exact ⟨_, _, hheader _ _ _ rfl hfails, hgives, rfl, (hbehind _ _ _ _ _ rfl hgives).2⟩

/-- A constant without a name, and behind its type a public function: the failure is at `public`,
where a declaration starts, but reading goes on behind it and the function is declared as one that
is not public. -/
theorem visibility_lost_at_fault :
    (declaration ⟨.kwConst, default⟩ (⟨.typeName .int, default⟩ :: publicFunction)).Fails
      .constantName
      publicFunction ∧
    startsDeclaration publicFunction = true ∧
      ¬ IsFirstStart publicFunction (resume publicFunction) ∧
    (parseModule publicFunction).1.functions.map Function.isPublic = [true] ∧
    (parseModule (⟨.kwConst, default⟩ :: ⟨.typeName .int, default⟩ ::
      publicFunction)).1.functions.map
      Function.isPublic = [false] := by
  refine ⟨⟨by decide, by cbv⟩, rfl, ?_, by cbv, by cbv⟩
  rw [isFirstStart_resume_iff]
  decide

end Parts

end Codewright.Surface
