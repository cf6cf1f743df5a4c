import Mathlib
import Codewright.Surface.Reading

/-!
# What readers give

A reader is known by what it gives: the value and the tokens it leaves (`Reading.Gives`). For every
way to put readers together there are lemmas that say when the whole gives a result; that the
readers of the language read what is spelled goes through these lemmas, and the bounds that the
readers carry seldom appear.
-/

namespace Codewright.Surface

open Source (Span)

/-- The kind of the token at the front. -/
def front (ts : List Token) : Option Kind := ts.head?.map (·.kind)

@[simp] theorem front_cons (t : Token) (ts : List Token) : front (t :: ts) = some t.kind := rfl

theorem front_eq_some {ts : List Token} {k : Kind} (h : front ts = some k) :
    ∃ t rest, ts = t :: rest ∧ t.kind = k := by
  cases ts with
  | nil => cases h
  | cons t rest => exact ⟨t, rest, rfl, Option.some.inj h⟩

theorem exists_of_bracketed {ts : List Token} {opening closing : Kind} {ks : List Kind}
    (h : ts.map (·.kind) = opening :: (ks ++ [closing])) :
    ∃ first inner last, ts = first :: (inner ++ [last]) ∧ first.kind = opening ∧
      inner.map (·.kind) = ks ∧ last.kind = closing := by
  obtain ⟨first, ts', rfl, hfirst, hts'⟩ := List.map_eq_cons_iff.mp h
  obtain ⟨inner, ts₁, rfl, hinner, hts₁⟩ := List.map_eq_append_iff.mp hts'
  obtain ⟨last, rfl, hlast⟩ := List.map_eq_singleton_iff.mp hts₁
  exact ⟨first, inner, last, rfl, hfirst, hinner, hlast⟩

/-- The same tokens with the closing bracket as the first of those that are left. -/
theorem bracketed_append (first : Token) (inner : List Token) (last : Token) (rest : List Token) :
    first :: (inner ++ [last]) ++ rest = first :: (inner ++ last :: rest) := by
  rw [List.cons_append, List.append_assoc, List.singleton_append]

namespace Reading

variable {α β : Type} {m n : Nat}

/-- The reader succeeds with `value` and leaves the tokens `rest`. -/
def Gives (r : Reading α n) (value : α) (rest : List Token) : Prop :=
  ∃ shorter, r = .ok value rest shorter

variable {r : Reading α n} {v v' : α} {rest rest' : List Token}

theorem Gives.unique (h : r.Gives v rest) (h' : r.Gives v' rest') : v = v' ∧ rest = rest' := by
  obtain ⟨_, rfl⟩ := h
  obtain ⟨_, h'⟩ := h'
  cases h'
  exact ⟨rfl, rfl⟩

@[simp] theorem gives_ok {h : rest.length < n} :
    (Reading.ok v rest h).Gives v' rest' ↔ v = v' ∧ rest = rest' := by
  constructor
  · intro hgives
    exact Gives.unique ⟨h, rfl⟩ hgives
  · rintro ⟨rfl, rfl⟩
    exact ⟨h, rfl⟩

@[simp] theorem not_gives_failed {e : Expectation}
    {h : rest.length ≤ n} : ¬ (Reading.failed e rest h : Reading α n).Gives v rest' := by
  rintro ⟨_, hok⟩
  cases hok

@[simp] theorem gives_single {t : Token} :
    (Reading.single v t rest).Gives v' rest' ↔ v = v' ∧ rest = rest' :=
  gives_ok

@[simp] theorem gives_widen {r : Reading α m} {h : m ≤ n} :
    (r.widen h).Gives v rest ↔ r.Gives v rest := by
  cases r with
  | ok v' rest' h' => simp only [widen, gives_ok]
  | failed e rest' h' => simp only [widen, not_gives_failed]

@[simp] theorem gives_behind {t : Token} {ts : List Token} {r : Reading α ts.length} :
    (r.behind t).Gives v rest ↔ r.Gives v rest :=
  gives_widen

@[simp] theorem gives_map {f : α → β} {w : β} :
    (r.map f).Gives w rest ↔ ∃ v, r.Gives v rest ∧ f v = w := by
  cases r with
  | ok v' rest' h' =>
    simp only [map, gives_ok]
    constructor
    · rintro ⟨rfl, rfl⟩
      exact ⟨v', ⟨rfl, rfl⟩, rfl⟩
    · rintro ⟨v, ⟨rfl, rfl⟩, rfl⟩
      exact ⟨rfl, rfl⟩
  | failed e rest' h' => simp only [map, not_gives_failed, false_and, exists_false]

@[simp] theorem gives_andThen {next : α → (rest : List Token) → Reading β rest.length} {w : β} :
    (r.andThen fun v rest _ => next v rest).Gives w rest ↔
      ∃ v rest₁, r.Gives v rest₁ ∧ (next v rest₁).Gives w rest := by
  cases r with
  | ok v' rest' h' =>
    simp only [andThen, gives_widen, gives_ok]
    constructor
    · intro h
      exact ⟨v', rest', ⟨rfl, rfl⟩, h⟩
    · rintro ⟨v, rest₁, ⟨rfl, rfl⟩, h⟩
      exact h
  | failed e rest' h' => simp only [andThen, not_gives_failed, false_and, exists_false]

end Reading

namespace Read

open Reading

variable {α β : Type} {n : Nat}

theorem gives_token {k : Kind} {t : Token} (hk : t.kind = k) (e : Expectation) (rest : List Token) :
    (token k e (t :: rest)).Gives t.span rest := by
  simp [token, hk]

theorem after?_of_kind {k : Kind} {t : Token} {rest : List Token} (h : t.kind = k) :
    after? k (t :: rest) = some ⟨rest, Nat.lt_succ_self _⟩ :=
  if_pos h

theorem after?_eq_none {k : Kind} {ts : List Token} (h : front ts ≠ some k) :
    after? k ts = none := by
  cases ts with
  | nil => rfl
  | cons t rest => exact if_neg fun hk => h (congrArg some hk)

theorem after?_cases (k : Kind) (ts : List Token) :
    (front ts ≠ some k ∧ after? k ts = none) ∨
      ∃ t rest, ts = t :: rest ∧ t.kind = k ∧ ∃ h, after? k ts = some ⟨rest, h⟩ := by
  by_cases h : front ts = some k
  · obtain ⟨t, rest, rfl, hk⟩ := front_eq_some h
    exact .inr ⟨t, rest, rfl, hk, _, after?_of_kind hk⟩
  · exact .inl ⟨h, after?_eq_none h⟩

end Read

namespace Reading

/-! The two ways on after a first reading: with the token `k` and without. -/

variable {α β : Type} {n : Nat} {r : Reading α n} {k : Kind} {v : α} {w : β}
  {rest rest₁ : List Token}
  {plain : (value : α) → (rest : List Token) → rest.length < n → Reading β n}
  {next : α → (rest : List Token) → Reading β rest.length}

theorem gives_orAfter_plain {h₁ : rest₁.length < n} (hr : r = .ok v rest₁ h₁)
    (hfront : front rest₁ ≠ some k) (h : (plain v rest₁ h₁).Gives w rest) :
    (r.orAfter k plain fun v rest _ => next v rest).Gives w rest := by
  subst hr
  simpa only [orAfter, Read.after?_eq_none hfront] using h

theorem gives_orAfter_next {t : Token} (hr : r.Gives v (t :: rest₁)) (hk : t.kind = k)
    (h : (next v rest₁).Gives w rest) :
    (r.orAfter k plain fun v rest _ => next v rest).Gives w rest := by
  obtain ⟨hlt, rfl⟩ := hr
  simpa only [orAfter, Read.after?_of_kind hk, gives_widen] using h

end Reading

/-! ## Names -/

/-- The name that its parts make up. -/
def joinName (part : String) (parts : List String) : String :=
  parts.foldl (fun name p => name ++ "." ++ p) part

/-- The tokens after the first part of a name. -/
def dotKinds (parts : List String) : List Kind := parts.flatMap fun p => [.dot, .ident p]

/-- The tokens of a name by its parts. -/
def partKinds (part : String) (parts : List String) : List Kind := .ident part :: dotKinds parts

namespace Read

open Reading

variable {rest : List Token}

theorem dotted_end (name : String) (span : Span) (hrest : front rest ≠ some .dot) :
    (dotted name span rest).Gives (name, span) rest := by
  unfold dotted
  split
  · exact absurd rfl hrest
  · exact absurd rfl hrest
  · exact gives_ok.mpr ⟨rfl, rfl⟩

theorem dotted_complete {used : List Token} {parts : List String} (name : String) (span : Span)
    (hused : used.map (·.kind) = dotKinds parts) (hrest : front rest ≠ some .dot) :
    ∃ s, (dotted name span (used ++ rest)).Gives (joinName name parts, s) rest := by
  induction parts generalizing used name span with
  | nil =>
    obtain rfl := List.map_eq_nil_iff.mp hused
    exact ⟨span, dotted_end name span hrest⟩
  | cons part parts ih =>
    obtain ⟨⟨k, dot⟩, used₁, rfl, rfl, hused₁⟩ := List.map_eq_cons_iff.mp hused
    obtain ⟨⟨k', partSpan⟩, used₂, rfl, rfl, hused₂⟩ := List.map_eq_cons_iff.mp hused₁
    obtain ⟨s, hs⟩ := ih (name ++ "." ++ part) (span.join partSpan) hused₂
    refine ⟨s, ?_⟩
    rw [List.cons_append, List.cons_append, dotted, gives_widen]
    exact hs

theorem qualifiedName_complete {used : List Token} {part : String} {parts : List String}
    (e : Expectation) (hused : used.map (·.kind) = partKinds part parts)
    (hrest : front rest ≠ some .dot) :
    ∃ s, (qualifiedName e (used ++ rest)).Gives (joinName part parts, s) rest := by
  obtain ⟨⟨k, span⟩, used₁, rfl, rfl, hused₁⟩ := List.map_eq_cons_iff.mp hused
  obtain ⟨s, hs⟩ := dotted_complete part span hused₁ hrest
  exact ⟨s, hs⟩

end Read

/-! ## A name cut at its dots -/

/-- The tokens of a name, cut at all its dots. -/
def nameKinds (name : String) : List Kind :=
  match name.toList.splitOn '.' with
  | [] => []
  | part :: parts => partKinds (String.ofList part) (parts.map String.ofList)

theorem joinName_ofList (part : List Char) (parts : List (List Char)) :
    joinName (String.ofList part) (parts.map String.ofList)
      = String.ofList (['.'].intercalate (part :: parts)) := by
  induction parts generalizing part with
  | nil => simp [joinName, List.intercalate]
  | cons p parts ih =>
    have hjoin : String.ofList part ++ "." ++ String.ofList p =
        String.ofList (part ++ '.' :: p) := by
      rw [String.ofList_append, ← List.singleton_append, String.ofList_append, String.append_assoc]
    show joinName (String.ofList part ++ "." ++ String.ofList p) (parts.map String.ofList) = _
    rw [hjoin, ih]
    cases parts with
    | nil => simp [List.intercalate]
    | cons q parts => simp [List.intercalate]

theorem nameKinds_spec (name : String) :
    ∃ part parts, nameKinds name = partKinds part parts ∧ name = joinName part parts := by
  unfold nameKinds
  split
  · next h => exact absurd h (List.splitOn_ne_nil _ _)
  · next part parts h =>
    refine ⟨_, _, rfl, ?_⟩
    rw [joinName_ofList, ← h, List.intercalate_splitOn, String.ofList_toList]

end Codewright.Surface
