import Codewright.Allocation
import Codewright.Proofs.Intervals

/-!
# Allocation keeps live locals apart

What a target must promise about its places is `LocationSource.Lawful`: a place that it hands out is
not held by anyone, a place for a parameter has never been out, and a stack slot that is handed out
where registers are in use has never been out either. The last point is what makes it safe to let
two locals change places.

From that follows, for every target: two locals in the same place have intervals that share no more
than an end point; a local has a place just if it is a parameter or its interval is longer than a
point; and no two parameters share a place.
-/

namespace Codewright

/-- The promises of a target. `Fit` ties its bookkeeping to the places that are `held`, the places
that have been `used`, and the number of parameters that are still to come. -/
structure LocationSource.Lawful {σ : Type} (src : LocationSource σ)
    (Fit : σ → Set Storage → Set Storage → Nat → Prop) : Prop where
  take : ∀ {st held used n} (ty : Ty), Fit st held used n →
    (src.take st ty false).1 ≠ .unassigned ∧ (src.take st ty false).1 ∉ held ∧
    ((src.take st ty false).1.isStack = true →
      (src.take st ty false).1 ∉ used ∨ ∀ place ∈ used, place.isRegister = false) ∧
    Fit (src.take st ty false).2 (insert (src.take st ty false).1 held)
      (insert (src.take st ty false).1 used) n
  takeParameter : ∀ {st held used n} (ty : Ty), Fit st held used (n + 1) →
    (src.take st ty true).1 ≠ .unassigned ∧ (src.take st ty true).1 ∉ used ∧
    Fit (src.take st ty true).2 (insert (src.take st ty true).1 held)
      (insert (src.take st ty true).1 used) n
  giveBack : ∀ {st held used n place}, Fit st held used n → place ∈ held →
    Fit (src.giveBack st place) (held \ {place}) used n
  held_used : ∀ {st held used n}, Fit st held used n → held ⊆ used

/-! ## Places -/

variable {locals : Locals} {x : LocalId} {n : Nat}

/-- A local gets a place, and the others keep theirs. -/
theorem storageOf_setStorage (hx : x < locals.size) (place : Storage) (y : LocalId) :
    storageOf (setStorage locals x place) y = if y = x then place else storageOf locals y := by
  simp only [storageOf, setStorage, Array.getElem?_modify]
  by_cases h : x = y
  · subst h
    simp [hx]
  · have h' : ¬ y = x := fun h' => h h'.symm
    simp [h, h']

theorem exists_declared_of_storageOf
    (h : storageOf locals x ≠ .unassigned) : ∃ d, declared locals x = some d := by
  unfold storageOf at h
  unfold declared
  cases hl : locals[x]? with
  | none =>
    rw [hl] at h
    exact absurd rfl h
  | some l => exact ⟨_, rfl⟩

theorem declared_setStorage (locals : Locals) (x : LocalId) (place : Storage) (y : LocalId) :
    declared (setStorage locals x place) y = declared locals y :=
  declared_modify fun _ => rfl

@[simp] theorem size_setStorage (locals : Locals) (x : LocalId) (place : Storage) :
    (setStorage locals x place).size = locals.size := by
  simp [setStorage]

/-- The order among the active locals does not matter. -/
theorem Active.insert_perm (a : Active) (actives : List Active) :
    (a.insert actives).Perm (a :: actives) := by
  induction actives with
  | nil => exact .refl _
  | cons b rest ih =>
    rw [Active.insert]
    split
    · exact (ih.cons b).trans (.swap a b rest)
    · exact .refl _

/-- Who may lend its place is in a register, of the same type and no parameter. -/
theorem Active.lends_eq {ty : Ty} {a : Active} (h : Active.lends locals ty a = true) :
    a.id < locals.size ∧ (storageOf locals a.id).isRegister = true ∧
      declared locals a.id = some (ty, false) := by
  unfold Active.lends at h
  cases hl : locals[a.id]? with
  | none => simp [hl] at h
  | some l =>
    simp only [hl, Bool.and_eq_true, Bool.not_eq_eq_eq_not, Bool.not_true, beq_iff_eq] at h
    obtain ⟨⟨hr, hp⟩, hty⟩ := h
    refine ⟨(Array.getElem?_eq_some_iff.mp hl).1, ?_, ?_⟩
    · simpa [storageOf, hl] using hr
    · simp [declared, hl, hp, hty]

namespace Allocator

variable {σ : Type} {src : LocationSource σ}

/-- The place of a local so far. -/
def placeOf (s : Allocator σ) (x : LocalId) : Storage := storageOf s.locals x

/-- The places of the active locals. -/
def held (s : Allocator σ) : Set Storage := {place | ∃ a ∈ s.active, s.placeOf a.id = place}

theorem locals_place (s : Allocator σ) (x : LocalId) (ty : Ty) (isParameter : Bool) (last : Int) :
    (s.place src x ty isParameter last).locals =
      if (src.take s.source ty isParameter).1.isStack && !isParameter then
        exchange (setStorage s.locals x (src.take s.source ty isParameter).1) s.active x ty last
          (src.take s.source ty isParameter).1
      else setStorage s.locals x (src.take s.source ty isParameter).1 := rfl

theorem active_place (s : Allocator σ) (x : LocalId) (ty : Ty) (isParameter : Bool) (last : Int) :
    (s.place src x ty isParameter last).active = Active.insert ⟨x, last⟩ s.active := rfl

theorem source_place (s : Allocator σ) (x : LocalId) (ty : Ty) (isParameter : Bool) (last : Int) :
    (s.place src x ty isParameter last).source = (src.take s.source ty isParameter).2 := rfl

/-- An exchange does nothing or lets the local change places with an active one in a register. -/
theorem exchange_cases {locals : Locals} {x : LocalId} (hx : x < locals.size)
    (active : List Active) (ty : Ty) (last : Int) (slot : Storage) :
    exchange locals active x ty last slot = locals ∨
    ∃ v ∈ active, (storageOf locals v.id).isRegister = true ∧
      declared locals v.id = some (ty, false) ∧ last < v.last ∧
      ∀ y, storageOf (exchange locals active x ty last slot) y =
        if y = x then storageOf locals v.id
        else if y = v.id then slot else storageOf locals y := by
  unfold exchange
  cases hv : active.find? (Active.lends locals ty) with
  | none => exact .inl rfl
  | some v =>
    have hmem := List.mem_of_find?_eq_some hv
    obtain ⟨hvlt, hreg, hdecl⟩ := Active.lends_eq (List.find?_some hv)
    by_cases hlast : last < v.last
    · refine .inr ⟨v, hmem, hreg, hdecl, hlast, fun y => ?_⟩
      simp only [if_pos hlast]
      rw [storageOf_setStorage (by simpa), storageOf_setStorage hvlt]
    · exact .inl (if_neg hlast)

theorem declared_exchange (locals : Locals) (active : List Active) (x : LocalId) (ty : Ty)
    (last : Int) (slot : Storage) (y : LocalId) :
    declared (exchange locals active x ty last slot) y = declared locals y := by
  unfold exchange
  split
  · split
    · rw [declared_setStorage, declared_setStorage]
    · rfl
  · rfl

/-- Placing changes no declaration. -/
theorem declared_place (src : LocationSource σ) (s : Allocator σ) (x : LocalId) (ty : Ty)
    (isParameter : Bool) (last : Int) (y : LocalId) :
    declared (s.place src x ty isParameter last).locals y = declared s.locals y := by
  rw [locals_place]
  split
  · rw [declared_exchange, declared_setStorage]
  · exact declared_setStorage _ _ _ _

/-- What the placing of a local comes to: it gets a place of the source, or the register of an
active local, which gets that place. -/
theorem place_cases (src : LocationSource σ) {s : Allocator σ} {x : LocalId} (ty : Ty)
    (isParameter : Bool) (last : Int) (hx : x < s.locals.size)
    (hactive : ∀ a ∈ s.active, a.id ≠ x) :
    (∀ y, (s.place src x ty isParameter last).placeOf y =
      if y = x then (src.take s.source ty isParameter).1 else s.placeOf y) ∨
    (isParameter = false ∧ (src.take s.source ty isParameter).1.isStack = true ∧
      ∃ v ∈ s.active, (s.placeOf v.id).isRegister = true ∧
        declared s.locals v.id = some (ty, false) ∧ last < v.last ∧
        ∀ y, (s.place src x ty isParameter last).placeOf y =
          if y = x then s.placeOf v.id
          else if y = v.id then (src.take s.source ty isParameter).1 else s.placeOf y) := by
  simp only [placeOf, locals_place]
  split
  · next h =>
    obtain ⟨hstack, hp⟩ := Bool.and_eq_true_iff.mp h
    have hx' : x < (setStorage s.locals x (src.take s.source ty isParameter).1).size := by simpa
    rcases exchange_cases hx' s.active ty last (src.take s.source ty isParameter).1
      with he | ⟨v, hv, hreg, hdecl, hlast, he⟩
    · rw [he]
      exact .inl (storageOf_setStorage hx _)
    · rw [storageOf_setStorage hx, if_neg (hactive v hv)] at hreg
      rw [declared_setStorage] at hdecl
      refine .inr ⟨by simpa using hp, hstack, v, hv, hreg, hdecl, hlast, fun y => ?_⟩
      rw [he, storageOf_setStorage hx, storageOf_setStorage hx, if_neg (hactive v hv)]
      by_cases hy : y = x <;> simp [hy]
  · exact .inl (storageOf_setStorage hx _)

/-! ## The invariant -/

/-- A local is declared as a parameter. -/
def IsParameter (decl : LocalId → Option (Ty × Bool)) (x : LocalId) : Prop :=
  ∃ ty, decl x = some (ty, true)

/-- Who is seated where between two visits, when the locals `done` have been visited, the last of
them at the beginning `now`. This much holds for any target. -/
structure Seating (decl : LocalId → Option (Ty × Bool)) (iv : LocalId → Option Interval)
    (s : Allocator σ) (now : Int) (done : Set LocalId) : Prop where
  decls : ∀ x, declared s.locals x = decl x
  active : ∀ a ∈ s.active, a.id ∈ done ∧ s.placeOf a.id ≠ .unassigned ∧
    ∃ i, iv a.id = some i ∧ i.last = a.last
  distinct : s.active.Pairwise fun a b => s.placeOf a.id ≠ s.placeOf b.id
  ended : ∀ x ∈ done, s.placeOf x ≠ .unassigned →
    (∃ a ∈ s.active, a.id = x) ∨ ∀ i, iv x = some i → i.last ≤ now
  placed : ∀ x ∈ done, ∀ i, iv x = some i →
    (s.placeOf x ≠ .unassigned ↔ i.first ≠ i.last ∨ IsParameter decl x)
  outside : ∀ x, x ∉ done → s.placeOf x = .unassigned

/-- What holds between two visits, when the locals `done` have been visited, the last of them at the
beginning `now`, and `n` parameters are to come. -/
structure Invariant (Fit : σ → Set Storage → Set Storage → Nat → Prop)
    (decl : LocalId → Option (Ty × Bool)) (iv : LocalId → Option Interval) (s : Allocator σ)
    (now : Int) (done : Set LocalId) (n : Nat) : Prop
    extends seating : Seating decl iv s now done where
  fit : ∃ used, Fit s.source s.held used n ∧
    ∀ x ∈ done, s.placeOf x ≠ .unassigned → s.placeOf x ∈ used
  apart : done.Pairwise fun x y => s.placeOf x = s.placeOf y → s.placeOf x ≠ .unassigned →
    ∀ i j, iv x = some i → iv y = some j → i.last ≤ j.first ∨ j.last ≤ i.first
  parameters : done.Pairwise fun x y => IsParameter decl x → IsParameter decl y →
    s.placeOf x ≠ s.placeOf y

section

variable {Fit : σ → Set Storage → Set Storage → Nat → Prop}
  {decl : LocalId → Option (Ty × Bool)} {iv : LocalId → Option Interval} {s : Allocator σ}
  {now : Int} {done : Set LocalId} {n : Nat} {used : Set Storage}

theorem active_expire (s : Allocator σ) (first : Int) :
    (s.expire src first).active = s.active.filter (first < ·.last) := rfl

theorem placeOf_expire (s : Allocator σ) (first : Int) (x : LocalId) :
    (s.expire src first).placeOf x = s.placeOf x := rfl

theorem source_expire (s : Allocator σ) (first : Int) :
    (s.expire src first).source = (s.active.filter (·.last ≤ first)).foldl
      (fun st a => src.giveBack st (storageOf s.locals a.id)) s.source := rfl

/-! ## Giving back -/

/-- What giving back keeps is kept by giving back all that has ended. -/
theorem source_expire_of_giveBack {Q : σ → Prop} (hQ : ∀ st place, Q st → Q (src.giveBack st place))
    (h : Q s.source) (first : Int) : Q (s.expire src first).source := by
  rw [source_expire]
  generalize s.source = st at h
  induction s.active.filter (·.last ≤ first) generalizing st with
  | nil => exact h
  | cons a rest ih => exact ih _ (hQ st _ h)

theorem Seating.lt_size (h : Seating decl iv s now done) {x : LocalId} {d : Ty × Bool}
    (hd : decl x = some d) : x < s.locals.size := by
  have hx := h.decls x
  rw [hd, declared, Option.map_eq_some_iff] at hx
  obtain ⟨l, hl, -⟩ := hx
  exact (Array.getElem?_eq_some_iff.mp hl).1

/-- No two active locals are in one place. -/
theorem Seating.active_inj (h : Seating decl iv s now done) {a b : Active}
    (ha : a ∈ s.active) (hb : b ∈ s.active) (hab : s.placeOf a.id = s.placeOf b.id) : a = b := by
  by_contra hne
  have : Std.Symm fun a b : Active => s.placeOf a.id ≠ s.placeOf b.id := ⟨fun _ _ => Ne.symm⟩
  exact h.distinct.forall ha hb hne hab

/-- The places that are held after the end of some locals. -/
theorem Seating.held_expire (h : Seating decl iv s now done) (first : Int) :
    (s.expire src first).held =
      s.held \ {place | ∃ a ∈ s.active.filter (·.last ≤ first), s.placeOf a.id = place} := by
  ext place
  simp only [held, active_expire, placeOf_expire, Set.mem_sdiff, Set.mem_ofPred_eq,
    List.mem_filter, decide_eq_true_eq]
  constructor
  · rintro ⟨a, ⟨ha, hlast⟩, rfl⟩
    refine ⟨⟨a, ha, rfl⟩, ?_⟩
    rintro ⟨b, ⟨hb, hlast'⟩, hab⟩
    have := h.active_inj hb ha hab
    subst this
    omega
  · rintro ⟨⟨a, ha, rfl⟩, hne⟩
    refine ⟨a, ⟨ha, ?_⟩, rfl⟩
    by_contra hlast
    exact hne ⟨a, ⟨ha, by omega⟩, rfl⟩

/-- What has ended is not active any more. -/
theorem Seating.expire (h : Seating decl iv s now done) {first : Int} (hnow : now ≤ first) :
    Seating decl iv (s.expire src first) first done where
  decls := h.decls
  active := fun a ha => h.active a (List.mem_of_mem_filter ha)
  distinct := h.distinct.sublist List.filter_sublist
  ended := by
    intro x hx hne
    rcases h.ended x hx hne with ⟨a, ha, rfl⟩ | hle
    · by_cases hlast : first < a.last
      · exact .inl ⟨a, List.mem_filter.mpr ⟨ha, by simpa using hlast⟩, rfl⟩
      · right
        intro i hi
        obtain ⟨-, -, j, hj, hja⟩ := h.active a ha
        rw [hi, Option.some.injEq] at hj
        subst hj
        omega
    · exact .inr fun i hi => (hle i hi).trans hnow
  placed := h.placed
  outside := h.outside

/-- Places are given back one after the other. What ties the target to the places that are held
holds all along. -/
theorem giveBack_all {Q : σ → Set Storage → Prop}
    (hQ : ∀ {st held place}, Q st held → place ∈ held → Q (src.giveBack st place) (held \ {place}))
    (locals : Locals) {ended : List Active} {st : σ} {held : Set Storage} (h : Q st held)
    (hheld : ∀ a ∈ ended, storageOf locals a.id ∈ held)
    (hd : ended.Pairwise fun a b => storageOf locals a.id ≠ storageOf locals b.id) :
    Q (ended.foldl (fun st a => src.giveBack st (storageOf locals a.id)) st)
      (held \ {place | ∃ a ∈ ended, storageOf locals a.id = place}) ∧
    ∀ st' ∈ ended.scanl (fun st a => src.giveBack st (storageOf locals a.id)) st,
      ∃ held, Q st' held := by
  induction ended generalizing st held with
  | nil => exact ⟨by simpa using h, by simpa using ⟨held, h⟩⟩
  | cons a rest ih =>
    obtain ⟨ha, hrest⟩ := List.pairwise_cons.mp hd
    have h' := hQ h (hheld a (by simp))
    obtain ⟨hend, hall⟩ :=
      ih h' (fun b hb => ⟨hheld b (List.mem_cons_of_mem _ hb), (ha b hb).symm⟩) hrest
    rw [List.foldl_cons, List.scanl_cons, List.forall_mem_cons]
    refine ⟨?_, ⟨held, h⟩, hall⟩
    convert hend using 1
    ext place
    simp only [Set.mem_sdiff, Set.mem_ofPred_eq, List.mem_cons, exists_eq_or_imp, not_or,
      Set.mem_singleton_iff]
    tauto

/-- What has ended is given back. -/
theorem Seating.giveBack (src : LocationSource σ) (hs : Seating decl iv s now done)
    {Q : σ → Set Storage → Prop}
    (hQ : ∀ {st held place}, Q st held → place ∈ held → Q (src.giveBack st place) (held \ {place}))
    (h : Q s.source s.held) (first : Int) :
    Q (s.expire src first).source (s.expire src first).held ∧
    ∀ st ∈ (s.active.filter (·.last ≤ first)).scanl
      (fun st a => src.giveBack st (storageOf s.locals a.id)) s.source, ∃ held, Q st held := by
  rw [hs.held_expire, source_expire]
  exact giveBack_all hQ s.locals h (fun a ha => ⟨a, List.mem_of_mem_filter ha, rfl⟩)
    (hs.distinct.sublist List.filter_sublist)

theorem Invariant.expire (hsrc : src.Lawful Fit) (h : Invariant Fit decl iv s now done n)
    {first : Int} (hnow : now ≤ first) :
    Invariant Fit decl iv (s.expire src first) first done n := by
  refine { h.seating.expire hnow with fit := ?_, apart := h.apart, parameters := h.parameters }
  obtain ⟨used, hfit, hused⟩ := h.fit
  exact ⟨used, (h.seating.giveBack src (Q := (Fit · · used n)) hsrc.giveBack hfit first).1, hused⟩

/-! ## Placing -/

/-- How the places change when a local is placed: it gets a place `π`, or the place of an active
local `v`, which gets `π` and is neither a parameter nor in a place that has been used. -/
inductive Placing (decl : LocalId → Option (Ty × Bool)) (used : Set Storage) (s s' : Allocator σ)
    (x : LocalId) (π : Storage) : Prop
  | plain (h : ∀ y, s'.placeOf y = if y = x then π else s.placeOf y)
  | swap (v : Active) (hv : v ∈ s.active) (hπ : π ∉ used) (hx : ¬ IsParameter decl x)
    (hp : ¬ IsParameter decl v.id)
    (h : ∀ y, s'.placeOf y = if y = x then s.placeOf v.id else if y = v.id then π else s.placeOf y)

/-- One more place is held after a local has been placed. -/
theorem Placing.held_eq {s' : Allocator σ} {x : LocalId} {π : Storage} {last : Int}
    (h : Placing decl used s s' x π) (hx : ∀ a ∈ s.active, a.id ≠ x)
    (ha : s'.active = Active.insert ⟨x, last⟩ s.active) : s'.held = insert π s.held := by
  have hmem : ∀ a, a ∈ s'.active ↔ a = ⟨x, last⟩ ∨ a ∈ s.active := fun a => by
    rw [ha, (Active.insert_perm _ _).mem_iff, List.mem_cons]
  ext place
  simp only [held, Set.mem_ofPred_eq, Set.mem_insert_iff, hmem]
  cases h with
  | plain h =>
    constructor
    · rintro ⟨a, rfl | ha, rfl⟩
      · exact .inl (by simp [h])
      · exact .inr ⟨a, ha, by rw [h, if_neg (hx a ha)]⟩
    · rintro (rfl | ⟨a, ha, rfl⟩)
      · exact ⟨_, .inl rfl, by simp [h]⟩
      · exact ⟨a, .inr ha, by rw [h, if_neg (hx a ha)]⟩
  | swap v hv _ _ _ h =>
    constructor
    · rintro ⟨a, rfl | ha, rfl⟩
      · exact .inr ⟨v, hv, by simp [h]⟩
      · rw [h, if_neg (hx a ha)]
        split
        · exact .inl rfl
        · exact .inr ⟨a, ha, rfl⟩
    · rintro (rfl | ⟨a, ha, rfl⟩)
      · exact ⟨v, .inr hv, by rw [h, if_neg (hx v hv), if_pos rfl]⟩
      · by_cases hav : a.id = v.id
        · exact ⟨_, .inl rfl, by simp [h, hav]⟩
        · exact ⟨a, .inr ha, by rw [h, if_neg (hx a ha), if_neg hav]⟩

section

variable {s' : Allocator σ} {x : LocalId} {π : Storage}

/-- The local that is placed gets a place, and the others keep theirs or none. -/
theorem Placing.assigned_iff (h : Placing decl used s s' x π)
    (hactive : ∀ a ∈ s.active, s.placeOf a.id ≠ .unassigned) (hπ : π ≠ .unassigned) (y : LocalId) :
    s'.placeOf y ≠ .unassigned ↔ y = x ∨ s.placeOf y ≠ .unassigned := by
  cases h with
  | plain h =>
    rw [h]
    split
    · next hy => simp [hy, hπ]
    · next hy => simp [hy]
  | swap v hv _ _ _ h =>
    have hvne := hactive v hv
    rw [h]
    split
    · next hy => simp [hy, hvne]
    · next hy =>
      split
      · next hyv => simp [hyv, hπ, hvne]
      · simp [hy]

/-- The place of a local that is placed is not held by another active one. -/
theorem Seating.place_ne (hs : Seating decl iv s now done) (hx : x ∉ done)
    (hheld : π ∉ s.held) (h : Placing decl used s s' x π) {a : Active} (ha : a ∈ s.active) :
    s'.placeOf x ≠ s'.placeOf a.id := by
  have hax : a.id ≠ x := fun h => hx (h ▸ (hs.active a ha).1)
  intro hsame
  cases h with
  | plain h =>
    rw [h, h, if_pos rfl, if_neg hax] at hsame
    exact hheld ⟨a, ha, hsame.symm⟩
  | swap v hv _ _ _ h =>
    rw [h, h, if_pos rfl, if_neg hax] at hsame
    split at hsame
    · exact hheld ⟨v, hv, hsame⟩
    · next hav => exact hav (by rw [hs.active_inj hv ha hsame])

/-- Active locals do not come into one place. -/
theorem Placing.active_same (h : Placing decl used s s' x π) (hax : ∀ a ∈ s.active, a.id ≠ x)
    (hheld : π ∉ s.held) {a b : Active} (ha : a ∈ s.active) (hb : b ∈ s.active)
    (hab : a.id ≠ b.id) (hsame : s'.placeOf a.id = s'.placeOf b.id) :
    s.placeOf a.id = s.placeOf b.id := by
  cases h with
  | plain h => rwa [h, h, if_neg (hax a ha), if_neg (hax b hb)] at hsame
  | swap v hv _ _ _ h =>
    rw [h, h, if_neg (hax a ha), if_neg (hax b hb)] at hsame
    split at hsame
    · next hav =>
      rw [if_neg fun hbv => hab (hav.trans hbv.symm)] at hsame
      exact absurd ⟨b, hb, hsame.symm⟩ hheld
    · split at hsame
      · exact absurd ⟨a, ha, hsame⟩ hheld
      · exact hsame

variable {i : Interval} {ty : Ty} {p : Bool} {order : List (LocalId × Interval)}
  {P : List (LocalId × Interval) → Allocator σ → Prop}

/-- The seating when a local has been placed. -/
theorem Seating.placing (hs : Seating decl iv s i.first done) (hx : x ∉ done)
    (hi : iv x = some i) (hπ : π ≠ .unassigned) (hheld : π ∉ s.held)
    (h : Placing decl used s s' x π) (hneeds : i.first ≠ i.last ∨ IsParameter decl x)
    (hdecl : ∀ y, declared s'.locals y = decl y)
    (hactive : s'.active = Active.insert ⟨x, i.last⟩ s.active) :
    Seating decl iv s' i.first (insert x done) := by
  have hax : ∀ a ∈ s.active, a.id ≠ x := fun a ha hax => hx (hax ▸ (hs.active a ha).1)
  have hmem : ∀ a, a ∈ s'.active ↔ a = ⟨x, i.last⟩ ∨ a ∈ s.active := fun a => by
    rw [hactive, (Active.insert_perm _ _).mem_iff, List.mem_cons]
  have hass := h.assigned_iff (fun a ha => (hs.active a ha).2.1) hπ
  refine
    { decls := hdecl
      active := ?_
      distinct := ?_
      ended := ?_
      placed := ?_
      outside := ?_ }
  · intro a ha
    rcases (hmem a).mp ha with rfl | ha
    · exact ⟨.inl rfl, (hass x).mpr (.inl rfl), i, hi, rfl⟩
    · obtain ⟨hd, hne, hlast⟩ := hs.active a ha
      exact ⟨.inr hd, (hass _).mpr (.inr hne), hlast⟩
  -- two places are exchanged at most, so the active ones stay distinct
  · rw [hactive, (Active.insert_perm _ _).pairwise_iff fun h => Ne.symm h, List.pairwise_cons]
    refine ⟨fun a ha => hs.place_ne hx hheld h ha, ?_⟩
    exact hs.distinct.imp_of_mem fun ha hb hne hsame =>
      hne (h.active_same hax hheld ha hb (fun hab => hne (by rw [hab])) hsame)
  · intro y hy hne
    rcases hy with rfl | hy
    · exact .inl ⟨_, (hmem _).mpr (.inl rfl), rfl⟩
    · have hyx : y ≠ x := fun h => hx (h ▸ hy)
      refine (hs.ended y hy (((hass y).mp hne).resolve_left hyx)).imp_left ?_
      rintro ⟨a, ha, rfl⟩
      exact ⟨a, (hmem a).mpr (.inr ha), rfl⟩
  · intro y hy j hj
    rcases hy with rfl | hy
    · rw [hi, Option.some.injEq] at hj
      subst hj
      rw [hass]
      simpa using hneeds
    · have hyx : y ≠ x := fun h => hx (h ▸ hy)
      rw [hass, ← hs.placed y hy j hj]
      simp [hyx]
  · intro y hy
    rw [Set.mem_insert_iff, not_or] at hy
    by_contra hne
    exact ((hass y).mp hne).elim hy.1 fun hne => hne (hs.outside y hy.2)

/-- Whoever is in the place of a local that has just been placed is not active any more, so it ended
before that one begins. -/
theorem Seating.ended_of_same (hs : Seating decl iv s i.first done) (hx : x ∉ done)
    (hπ : π ≠ .unassigned) (hheld : π ∉ s.held) (h : Placing decl used s s' x π) {y : LocalId}
    (hy : y ∈ done) (hsame : s'.placeOf x = s'.placeOf y) (hne : s'.placeOf x ≠ .unassigned)
    {j : Interval} (hj : iv y = some j) : j.last ≤ i.first := by
  have hyx : y ≠ x := fun h => hx (h ▸ hy)
  have hass := h.assigned_iff (fun a ha => (hs.active a ha).2.1) hπ
  rcases hs.ended y hy (((hass y).mp (hsame ▸ hne)).resolve_left hyx) with ⟨a, ha, rfl⟩ | hle
  · exact absurd hsame (hs.place_ne hx hheld h ha)
  · exact hle j hj

/-- A local that is touched at one point only needs no place. -/
theorem Seating.skip (hs : Seating decl iv s now done) (hx : x ∉ done)
    (hi : iv x = some i) (hpoint : i.first = i.last) (hp : ¬ IsParameter decl x) :
    Seating decl iv s now (insert x done) := by
  have hun := hs.outside x hx
  refine { hs with active := ?_, ended := ?_, placed := ?_, outside := ?_ }
  · intro a ha
    obtain ⟨hd, hrest⟩ := hs.active a ha
    exact ⟨.inr hd, hrest⟩
  · intro y hy hne
    rcases hy with rfl | hy
    · exact absurd hun hne
    · exact hs.ended y hy hne
  · intro y hy j hj
    rcases hy with rfl | hy
    · rw [hi, Option.some.injEq] at hj
      subst hj
      simp [hun, hpoint, hp]
    · exact hs.placed y hy j hj
  · intro y hy
    exact hs.outside y fun h => hy (.inr h)

/-- No two locals from before come into one place. -/
theorem Placing.same_of_same (h : Placing decl used s s' x π) (hx : x ∉ done)
    (hused : ∀ y ∈ done, s.placeOf y ≠ .unassigned → s.placeOf y ∈ used)
    (hπ : π ≠ .unassigned) {y z : LocalId} (hy : y ∈ done) (hz : z ∈ done) (hyz : y ≠ z)
    (hsame : s'.placeOf y = s'.placeOf z) : s.placeOf y = s.placeOf z := by
  have hyx : y ≠ x := fun h => hx (h ▸ hy)
  have hzx : z ≠ x := fun h => hx (h ▸ hz)
  cases h with
  | plain h => rwa [h, h, if_neg hyx, if_neg hzx] at hsame
  | swap v hv hfresh _ _ h =>
    have hmem : ∀ u ∈ done, π = s.placeOf u → π ∈ used := fun u hu heq => by
      rw [heq]
      exact hused u hu (heq ▸ hπ)
    rw [h, h, if_neg hyx, if_neg hzx] at hsame
    split at hsame
    · next hyv =>
      rw [if_neg fun hzv => hyz (hyv.trans hzv.symm)] at hsame
      exact absurd (hmem z hz hsame) hfresh
    · split at hsame
      · exact absurd (hmem y hy hsame.symm) hfresh
      · exact hsame

/-- The invariant when a local has been placed. -/
theorem Invariant.placing {n' : Nat}
    (hI : Invariant Fit decl iv s i.first done n) (hx : x ∉ done) (hi : iv x = some i)
    (hused : ∀ y ∈ done, s.placeOf y ≠ .unassigned → s.placeOf y ∈ used)
    (hπ : π ≠ .unassigned) (hheld : π ∉ s.held) (hparam : IsParameter decl x → π ∉ used)
    (h : Placing decl used s s' x π) (hneeds : i.first ≠ i.last ∨ IsParameter decl x)
    (hdecl : ∀ y, declared s'.locals y = decl y)
    (hactive : s'.active = Active.insert ⟨x, i.last⟩ s.active)
    (hfit : Fit s'.source (insert π s.held) (insert π used) n') :
    Invariant Fit decl iv s' i.first (insert x done) n' := by
  have hax : ∀ a ∈ s.active, a.id ≠ x := fun a ha hax => hx (hax ▸ (hI.active a ha).1)
  have hass := h.assigned_iff (fun a ha => (hI.active a ha).2.1) hπ
  refine
    { hI.seating.placing hx hi hπ hheld h hneeds hdecl hactive with
      fit := ⟨insert π used, by rw [h.held_eq hax hactive]; exact hfit, ?_⟩
      apart := ?_
      parameters := ?_ }
  · intro y hy hne
    rcases hy with rfl | hy
    · cases h with
      | plain h => exact .inl (by simp [h])
      -- after a swap the local has the place of the other one, which was in use
      | swap v hv _ _ _ h =>
        have hv' := hI.active v hv
        rw [h, if_pos rfl]
        exact .inr (hused v.id hv'.1 hv'.2.1)
    · have hyx : y ≠ x := fun h => hx (h ▸ hy)
      have hold := hused y hy (((hass y).mp hne).resolve_left hyx)
      cases h with
      | plain h => rw [h, if_neg hyx]; exact .inr hold
      | swap v hv _ _ _ h =>
        rw [h, if_neg hyx]
        split
        · exact .inl rfl
        · exact .inr hold
  · have hold : done.Pairwise fun y z => s'.placeOf y = s'.placeOf z → s'.placeOf y ≠ .unassigned →
        ∀ j k, iv y = some j → iv z = some k → j.last ≤ k.first ∨ k.last ≤ j.first :=
      fun y hy z hz hyz hsame hne => hI.apart hy hz hyz (h.same_of_same hx hused hπ hy hz hyz hsame)
        (((hass y).mp hne).resolve_left fun h => hx (h ▸ hy))
    refine hold.insert_of_notMem hx fun y hy =>
      ⟨fun hsame hne j k hj hk => ?_, fun hsame hne j k hj hk => ?_⟩
    · obtain rfl := Option.some.inj (hi.symm.trans hj)
      exact .inr (hI.seating.ended_of_same hx hπ hheld h hy hsame hne hk)
    · obtain rfl := Option.some.inj (hi.symm.trans hk)
      exact .inl (hI.seating.ended_of_same hx hπ hheld h hy hsame.symm (hsame ▸ hne) hj)
  · have hold : done.Pairwise fun y z => IsParameter decl y → IsParameter decl z →
        s'.placeOf y ≠ s'.placeOf z :=
      fun y hy z hz hyz hpy hpz hsame =>
        hI.parameters hy hz hyz hpy hpz (h.same_of_same hx hused hπ hy hz hyz hsame)
    have hnew : ∀ y ∈ done, IsParameter decl x → s'.placeOf x ≠ s'.placeOf y := by
      intro y hy hpx hsame
      have hyx : y ≠ x := fun h => hx (h ▸ hy)
      cases h with
      | plain h =>
        rw [h, h, if_pos rfl, if_neg hyx] at hsame
        exact hparam hpx (hsame ▸ hused y hy (hsame ▸ hπ))
      | swap v hv _ hnp => exact hnp hpx
    exact hold.insert_of_notMem hx fun y hy =>
      ⟨fun hpx _ => hnew y hy hpx, fun _ hpx => (hnew y hy hpx).symm⟩

theorem Invariant.skip (hI : Invariant Fit decl iv s now done n) (hx : x ∉ done)
    (hi : iv x = some i) (hpoint : i.first = i.last) (hp : ¬ IsParameter decl x) :
    Invariant Fit decl iv s now (insert x done) n := by
  have hun := hI.outside x hx
  refine { hI.seating.skip hx hi hpoint hp with fit := ?_, apart := ?_, parameters := ?_ }
  · obtain ⟨used, hfit, hused⟩ := hI.fit
    refine ⟨used, hfit, fun y hy hne => ?_⟩
    rcases hy with rfl | hy
    · exact absurd hun hne
    · exact hused y hy hne
  · exact hI.apart.insert_of_notMem hx fun y _ =>
      ⟨fun _ hne => absurd hun hne, fun hsame hne => absurd (hsame.trans hun) hne⟩
  · exact hI.parameters.insert_of_notMem hx fun y _ =>
      ⟨fun hpx => absurd hpx hp, fun _ hpx => absurd hpx hp⟩

theorem not_isParameter_of_declared (hd : decl x = some (ty, false)) : ¬ IsParameter decl x := by
  rintro ⟨ty', h⟩
  rw [hd] at h
  cases h

/-- Placing a local keeps the invariant, whatever the source hands out. -/
theorem Invariant.place (hsrc : src.Lawful Fit) {n : Nat}
    (hI : Invariant Fit decl iv s i.first done (if p then n + 1 else n)) (hx : x ∉ done)
    (hi : iv x = some i) (hd : decl x = some (ty, p)) (hneeds : i.first ≠ i.last ∨ p = true) :
    Invariant Fit decl iv (s.place src x ty p i.last) i.first (insert x done) n := by
  have hax : ∀ a ∈ s.active, a.id ≠ x := fun a ha hax => hx (hax ▸ (hI.active a ha).1)
  have hdecl := fun y => (declared_place src s x ty p i.last y).trans (hI.decls y)
  obtain ⟨used, hfit, hused⟩ := hI.fit
  have hcases := place_cases src ty p i.last (hI.seating.lt_size hd) hax
  cases p with
  | true =>
    obtain ⟨hπ, hfresh, hfit'⟩ := hsrc.takeParameter ty hfit
    have hplain := hcases.resolve_right fun h => by simp at h
    exact hI.placing hx hi hused hπ (fun h => hfresh (hsrc.held_used hfit h)) (fun _ => hfresh)
      (.plain hplain) (.inr ⟨ty, hd⟩) hdecl rfl hfit'
  | false =>
    obtain ⟨hπ, hheld, hstack, hfit'⟩ := hsrc.take ty hfit
    have hnp : ¬ IsParameter decl x := not_isParameter_of_declared hd
    refine hI.placing hx hi hused hπ hheld (fun h => absurd h hnp) ?_ (.inl (by simpa using hneeds))
      hdecl rfl hfit'
    rcases hcases with hplain | ⟨-, hs, v, hv, hreg, hvd, -, h⟩
    · exact .plain hplain
    · obtain ⟨hvdone, hvne, -⟩ := hI.active v hv
      refine .swap v hv ?_ hnp ?_ h
      · refine (hstack hs).resolve_right fun hnone => ?_
        have := hnone _ (hused v.id hvdone hvne)
        rw [hreg] at this
        cases this
      · exact not_isParameter_of_declared ((hI.decls v.id).symm.trans hvd)

/-- A visit gives back what has ended, and then the local goes by or gets a place. -/
theorem visit_cases (src : LocationSource σ) {s : Allocator σ} (i : Interval)
    (hd : declared s.locals x = some (ty, p)) :
    (i.first = i.last ∧ p = false ∧ s.visit src x i = s.expire src i.first) ∨
      ((i.first ≠ i.last ∨ p = true) ∧
        s.visit src x i = (s.expire src i.first).place src x ty p i.last) := by
  have hmatch : (s.expire src i.first).locals[x]?.map (fun l => (l.ty, l.isParameter))
      = some (ty, p) := hd
  unfold Allocator.visit
  simp only [hmatch]
  by_cases hp : (i.isPoint && !p) = true
  · rw [if_pos hp]
    obtain ⟨hpoint, hp⟩ := Bool.and_eq_true_iff.mp hp
    exact .inl ⟨by simpa [Interval.isPoint] using hpoint, by simpa using hp, rfl⟩
  · rw [if_neg hp]
    refine .inr ⟨?_, rfl⟩
    simp only [Interval.isPoint, Bool.and_eq_true, beq_iff_eq, Bool.not_eq_eq_eq_not,
      Bool.not_true, not_and, Bool.not_eq_false] at hp
    by_cases h : i.first = i.last
    · exact .inr (hp h)
    · exact .inl h

/-- One visit keeps the invariant. -/
theorem Invariant.visit (hsrc : src.Lawful Fit) {n : Nat}
    (hI : Invariant Fit decl iv s now done (if p then n + 1 else n)) (hnow : now ≤ i.first)
    (hx : x ∉ done) (hi : iv x = some i) (hd : decl x = some (ty, p)) :
    Invariant Fit decl iv (s.visit src x i) i.first (insert x done) n := by
  have hI' := hI.expire hsrc hnow
  rcases visit_cases src i ((hI.decls x).trans hd) with ⟨hpoint, rfl, hvisit⟩ | ⟨hneeds, hvisit⟩
  · rw [hvisit]
    exact hI'.skip hx hi hpoint (not_isParameter_of_declared hd)
  · rw [hvisit]
    exact hI'.place hsrc hx hi hd hneeds

/-! ## A run of visits -/

/-- The locals of these visits. -/
def visited (visits : List (LocalId × Interval)) : Set LocalId := {x | x ∈ visits.map Prod.fst}

theorem visited_append_singleton (before : List (LocalId × Interval)) (x : LocalId) (i : Interval) :
    visited (before ++ [(x, i)]) = insert x (visited before) := by
  ext y
  simp [visited, or_comm]

/-- A property of the visits so far and the state that withstands each step of the visits in an
order: what has ended is given back, and then a local goes by or is placed. -/
structure Carried (src : LocationSource σ) (Fit : σ → Set Storage → Set Storage → Nat → Prop)
    (decl : LocalId → Option (Ty × Bool)) (iv : LocalId → Option Interval)
    (order : List (LocalId × Interval)) (P : List (LocalId × Interval) → Allocator σ → Prop) :
    Prop where
  expire : ∀ {before s now n first}, Invariant Fit decl iv s now (visited before) n → now ≤ first →
    P before s → P before (s.expire src first)
  skip : ∀ {before x i after s n ty}, order = before ++ (x, i) :: after → x ∉ visited before →
    iv x = some i → Invariant Fit decl iv s i.first (visited before) n →
    decl x = some (ty, false) → i.first = i.last → P before s → P (before ++ [(x, i)]) s
  place : ∀ {before x i after s n ty p}, order = before ++ (x, i) :: after → x ∉ visited before →
    iv x = some i → Invariant Fit decl iv s i.first (visited before) (if p then n + 1 else n) →
    (∀ a ∈ s.active, i.first < a.last) → decl x = some (ty, p) → i.first ≠ i.last ∨ p = true →
    P before s → P (before ++ [(x, i)]) (s.place src x ty p i.last)

/-- Two properties are carried together. -/
theorem Carried.and
    {Q : List (LocalId × Interval) → Allocator σ → Prop} (hP : Carried src Fit decl iv order P)
    (hQ : Carried src Fit decl iv order Q) :
    Carried src Fit decl iv order fun before s => P before s ∧ Q before s where
  expire := fun hI hle h => ⟨hP.expire hI hle h.1, hQ.expire hI hle h.2⟩
  skip := fun hcut hx hi hI hd hpoint h =>
    ⟨hP.skip hcut hx hi hI hd hpoint h.1, hQ.skip hcut hx hi hI hd hpoint h.2⟩
  place := fun hcut hx hi hI hactive hd hneeds h =>
    ⟨hP.place hcut hx hi hI hactive hd hneeds h.1, hQ.place hcut hx hi hI hactive hd hneeds h.2⟩

/-- The states that a target goes through along visits: a visit gives back the places of the locals
that have ended, one after the other, and may then take one. -/
def sources (src : LocationSource σ) : List (LocalId × Interval) → Allocator σ → List σ
  | [], s => [s.source]
  | (x, i) :: rest, s =>
    (s.active.filter (·.last ≤ i.first)).scanl
      (fun st a => src.giveBack st (storageOf s.locals a.id)) s.source ++
        sources src rest (s.visit src x i)

/-- A visit carries the property on. -/
theorem Carried.visit {before after : List (LocalId × Interval)}
    (hP : Carried src Fit decl iv order P) (hsrc : src.Lawful Fit)
    (hcut : order = before ++ (x, i) :: after) (hx : x ∉ visited before) (hi : iv x = some i)
    (hI : Invariant Fit decl iv s now (visited before) (if p then n + 1 else n))
    (hnow : now ≤ i.first)
    (hd : decl x = some (ty, p)) (h : P before s) : P (before ++ [(x, i)]) (s.visit src x i) := by
  have hI' := hI.expire hsrc hnow
  have h' := hP.expire hI hnow h
  rcases visit_cases src i ((hI.decls x).trans hd) with ⟨hpoint, rfl, hvisit⟩ | ⟨hneeds, hvisit⟩
  · rw [hvisit]
    exact hP.skip hcut hx hi hI' hd hpoint h'
  · rw [hvisit]
    refine hP.place hcut hx hi hI' (fun a ha => ?_) hd hneeds h'
    exact of_decide_eq_true (List.mem_filter.mp ha).2

/-- Visiting locals in the order of their beginnings keeps the invariant and what is carried, and
the target is in a fit state all along. -/
theorem Invariant.visits (hsrc : src.Lawful Fit) {before after : List (LocalId × Interval)}
    (hsorted : order.Pairwise fun a b => a.2.first ≤ b.2.first)
    (hnodup : (order.map Prod.fst).Nodup) (hiv : ∀ e ∈ order, iv e.1 = some e.2)
    (hdecl : ∀ e ∈ order, ∃ ty p, decl e.1 = some (ty, p))
    (hP : Carried src Fit decl iv order P) (hcut : order = before ++ after)
    (hnow : ∀ e ∈ after, now ≤ e.2.first)
    (hI : Invariant Fit decl iv s now (visited before)
      (after.countP fun e => (decl e.1).any (·.2))) (h : P before s) :
    (∃ now', Invariant Fit decl iv (after.foldl (fun s (x, i) => s.visit src x i) s) now'
      (visited order) 0) ∧
    P order (after.foldl (fun s (x, i) => s.visit src x i) s) ∧
    ∀ st ∈ s.sources src after, ∃ held used n, Fit st held used n := by
  -- on the locals to come; the invariant is about those visited
  induction after generalizing s now before with
  | nil =>
    rw [List.append_nil] at hcut
    subst hcut
    refine ⟨⟨now, hI⟩, h, fun st hst => ?_⟩
    obtain ⟨used, hfit, -⟩ := hI.fit
    rw [sources, List.mem_singleton] at hst
    subst hst
    exact ⟨_, used, _, hfit⟩
  | cons e rest ih =>
    obtain ⟨x, i⟩ := e
    have hmem : (x, i) ∈ order := hcut ▸ List.mem_append_right _ List.mem_cons_self
    obtain ⟨ty, p, hd⟩ := hdecl _ hmem
    have hi := hiv _ hmem
    have hle : now ≤ i.first := hnow _ List.mem_cons_self
    have hx : x ∉ visited before := by
      rw [hcut, List.map_append, List.map_cons] at hnodup
      exact fun hx => (List.nodup_append.mp hnodup).2.2 x hx x List.mem_cons_self rfl
    have hrest : ∀ e ∈ rest, i.first ≤ e.2.first := by
      rw [hcut] at hsorted
      exact (List.pairwise_cons.mp (List.pairwise_append.mp hsorted).2.1).1
    have hI' : Invariant Fit decl iv s now (visited before)
        (if p then (rest.countP fun e => (decl e.1).any (·.2)) + 1
          else rest.countP fun e => (decl e.1).any (·.2)) := by
      convert hI using 1
      rw [List.countP_cons, hd]
      cases p <;> simp
    have hcut' : order = (before ++ [(x, i)]) ++ rest := by
      rw [hcut, List.append_assoc, List.singleton_append]
    have hvisit := Invariant.visit hsrc hI' hle hx hi hd
    rw [← visited_append_singleton before x i] at hvisit
    obtain ⟨hinvariant, hcarried, hsources⟩ :=
      ih hcut' hrest hvisit (hP.visit hsrc hcut hx hi hI' hle hd h)
    refine ⟨hinvariant, hcarried, fun st hst => ?_⟩
    rw [sources, List.mem_append] at hst
    rcases hst with hst | hst
    · obtain ⟨used, hfit, -⟩ := hI.fit
      obtain ⟨held, hheld⟩ :=
        (hI.seating.giveBack src (Q := (Fit · · used _)) hsrc.giveBack hfit i.first).2 st hst
      exact ⟨held, used, _, hheld⟩
    · exact hsources st hst

end

end

end Allocator

/-! ## The order of visits -/

/-- The locals that have an interval, from a place of the table on. -/
theorem live_sorted (ls : List Local) (k : Nat) :
    (((ls.zipIdx k).filterMap fun (l, x) => l.interval.map (x, ·)).map Prod.fst).Pairwise (· < ·) ∧
    ∀ e ∈ (ls.zipIdx k).filterMap fun (l, x) => l.interval.map (x, ·), k ≤ e.1 := by
  induction ls generalizing k with
  | nil => simp
  | cons l rest ih =>
    obtain ⟨hsorted, hge⟩ := ih (k + 1)
    rw [List.zipIdx_cons]
    cases hl : l.interval with
    | none =>
      rw [List.filterMap_cons_none (by simp [hl])]
      exact ⟨hsorted, fun e he => by have := hge e he; omega⟩
    | some i =>
      rw [List.filterMap_cons_some (b := (k, i)) (by simp [hl])]
      refine ⟨?_, ?_⟩
      · rw [List.map_cons, List.pairwise_cons]
        refine ⟨fun y hy => ?_, hsorted⟩
        obtain ⟨e, he, rfl⟩ := List.mem_map.mp hy
        have := hge e he
        exact this
      · intro e he
        rcases List.mem_cons.mp he with rfl | he
        · exact le_refl _
        · have := hge e he
          omega

section

variable {locals : Locals}

/-- The visits are to the locals that have an interval. -/
theorem mem_allocationOrder {e : LocalId × Interval} :
    e ∈ allocationOrder locals ↔ intervalOf locals e.1 = some e.2 := by
  obtain ⟨x, i⟩ := e
  simp only [allocationOrder, (List.mergeSort_perm _ _).mem_iff, List.mem_filterMap, intervalOf,
    Option.bind_eq_some_iff, Prod.exists, List.mem_zipIdx_iff_getElem?, Array.getElem?_toList,
    Option.map_eq_some_iff, Prod.mk.injEq]
  constructor
  · rintro ⟨l, y, hl, j, hj, rfl, rfl⟩
    exact ⟨l, hl, hj⟩
  · rintro ⟨l, hl, hj⟩
    exact ⟨l, x, hl, i, hj, rfl, rfl⟩

theorem allocationOrder_nodup (locals : Locals) :
    ((allocationOrder locals).map Prod.fst).Nodup := by
  refine ((List.mergeSort_perm _ _).map Prod.fst).nodup_iff.mpr ?_
  exact (live_sorted locals.toList 0).1.imp fun h => Nat.ne_of_lt h

/-- They come in the order of their beginnings. -/
theorem allocationOrder_sorted (locals : Locals) :
    (allocationOrder locals).Pairwise fun a b => a.2.first ≤ b.2.first := by
  have := @List.pairwise_mergeSort _ (fun a b : LocalId × Interval => a.2.first ≤ b.2.first)
    (by simp only [decide_eq_true_eq]; omega)
    (by simp only [Bool.or_eq_true, decide_eq_true_eq]; omega)
    (locals.toList.zipIdx.filterMap fun (l, x) => l.interval.map (x, ·))
  exact this.imp fun h => by simpa using h

theorem exists_le_first (locals : Locals) :
    ∃ now, ∀ e ∈ allocationOrder locals, now ≤ e.2.first := by
  have hsorted := allocationOrder_sorted locals
  cases h : allocationOrder locals with
  | nil => exact ⟨0, by simp⟩
  | cons e rest =>
    rw [h, List.pairwise_cons] at hsorted
    exact ⟨e.2.first, by simpa using hsorted.1⟩

theorem declared_of_mem_allocationOrder {e : LocalId × Interval} (h : e ∈ allocationOrder locals) :
    ∃ ty p, declared locals e.1 = some (ty, p) := by
  obtain ⟨l, hl, -⟩ := Option.bind_eq_some_iff.mp (mem_allocationOrder.mp h)
  exact ⟨l.ty, l.isParameter, by rw [declared, hl]; rfl⟩

theorem setOf_mem_allocationOrder (locals : Locals) :
    {x | x ∈ (allocationOrder locals).map Prod.fst} = {x | intervalOf locals x ≠ none} := by
  ext x
  simp only [Set.mem_ofPred_eq, List.mem_map, Prod.exists, mem_allocationOrder,
    exists_and_right, exists_eq_right, Option.ne_none_iff_exists']

end

/-! ## Allocation of a routine -/

/-- How locals share places. -/
structure Sharing (decl : LocalId → Option (Ty × Bool)) (iv : LocalId → Option Interval)
    (place : LocalId → Storage) : Prop where
  /-- In one place, one interval has ended when the other begins. -/
  apart : ∀ x y i j, x ≠ y → place x = place y → place x ≠ .unassigned → iv x = some i →
    iv y = some j → i.last ≤ j.first ∨ j.last ≤ i.first
  /-- All but locals that are touched at one point have a place. -/
  placed : ∀ x i, iv x = some i →
    (place x ≠ .unassigned ↔ i.first ≠ i.last ∨ Allocator.IsParameter decl x)
  parameters : ∀ x y, x ≠ y → iv x ≠ none → iv y ≠ none → Allocator.IsParameter decl x →
    Allocator.IsParameter decl y → place x ≠ place y

/-- Locals with overlapping intervals are in different places. -/
theorem Sharing.place_ne {decl : LocalId → Option (Ty × Bool)} {iv : LocalId → Option Interval}
    {place : LocalId → Storage} (h : Sharing decl iv place) {y : LocalId} {i j : Interval}
    (hxy : x ≠ y) (hi : iv x = some i) (hj : iv y = some j) (hoverlaps : i.overlaps j = true)
    (hne : place x ≠ .unassigned) : place x ≠ place y := by
  intro hsame
  obtain ⟨hij, hji⟩ := Bool.and_eq_true_iff.mp hoverlaps
  have hij := of_decide_eq_true hij
  have hji := of_decide_eq_true hji
  rcases h.apart x y i j hxy hsame hne hi hj with hle | hle <;> omega

/-- Nobody is seated before the first visit. -/
theorem Allocator.Seating.start {σ : Type} (hclear : ∀ x, storageOf locals x = .unassigned)
    (start : σ) (iv : LocalId → Option Interval) (now : Int) :
    Seating (declared locals) iv { locals, source := start } now ∅ where
  decls := fun _ => rfl
  active := by simp
  distinct := List.Pairwise.nil
  ended := by simp
  placed := by simp
  outside := fun x _ => hclear x

/-- The invariant before the first visit. -/
theorem Allocator.Invariant.start {σ : Type} {Fit : σ → Set Storage → Set Storage → Nat → Prop}
    (hclear : ∀ x, storageOf locals x = .unassigned) {start : σ}
    (hstart : Fit start ∅ ∅ n) (iv : LocalId → Option Interval) (now : Int) :
    Invariant Fit (declared locals) iv { locals, source := start } now ∅ n :=
  { Seating.start hclear start iv now with
    fit := ⟨∅, by simpa [held] using hstart, by simp⟩
    apart := by simp
    parameters := by simp }

section

variable {σ : Type} {src : LocationSource σ} {Fit : σ → Set Storage → Set Storage → Nat → Prop}
  {r : Routine} {start : σ} (hsrc : src.Lawful Fit)
  (hclear : ∀ x, storageOf r.locals x = .unassigned)
  (hstart : Fit start ∅ ∅ ((allocationOrder r.locals).countP fun e =>
    (declared r.locals e.1).any (·.2)))

include hsrc hclear hstart

/-- What is carried along the visits holds in the end, and the target has been in fit states
only. -/
theorem Routine.allocate_carries
    {P : List (LocalId × Interval) → Allocator σ → Prop}
    (hP : Allocator.Carried src Fit (declared r.locals) (intervalOf r.locals)
      (allocationOrder r.locals) P) (h : P [] { locals := r.locals, source := start }) :
    (∃ now active, Allocator.Invariant Fit (declared r.locals) (intervalOf r.locals)
        { locals := (r.allocate src start).1.locals, active, source := (r.allocate src start).2.2 }
        now {x | intervalOf r.locals x ≠ none} 0 ∧
      P (allocationOrder r.locals)
        { locals := (r.allocate src start).1.locals, active,
          source := (r.allocate src start).2.2 }) ∧
    ∀ st ∈ Allocator.sources src (allocationOrder r.locals) { locals := r.locals, source := start },
      ∃ held used n, Fit st held used n := by
  obtain ⟨now, hnow⟩ := exists_le_first r.locals
  have hbegun := Allocator.Invariant.start hclear hstart (intervalOf r.locals) now
  rw [show (∅ : Set LocalId) = Allocator.visited [] by ext; simp [Allocator.visited]] at hbegun
  obtain ⟨⟨now', hinvariant⟩, hcarried, hsources⟩ := hbegun.visits hsrc (allocationOrder_sorted _)
    (allocationOrder_nodup _) (fun e he => mem_allocationOrder.mp he)
    (fun e he => declared_of_mem_allocationOrder he) hP (List.nil_append _).symm hnow h
  rw [Allocator.visited, setOf_mem_allocationOrder] at hinvariant
  exact ⟨⟨now', _, hinvariant, hcarried⟩, hsources⟩

theorem Routine.allocate_invariant :
    ∃ now active, Allocator.Invariant Fit (declared r.locals) (intervalOf r.locals)
      { locals := (r.allocate src start).1.locals, active, source := (r.allocate src start).2.2 }
      now {x | intervalOf r.locals x ≠ none} 0 := by
  have htrivial : Allocator.Carried src Fit (declared r.locals) (intervalOf r.locals)
      (allocationOrder r.locals) fun _ _ => True :=
    ⟨fun _ _ _ => trivial, fun _ _ _ _ _ _ _ => trivial, fun _ _ _ _ _ _ _ _ => trivial⟩
  obtain ⟨⟨now, active, h, -⟩, -⟩ := allocate_carries hsrc hclear hstart htrivial trivial
  exact ⟨now, active, h⟩

/-- Allocation keeps locals apart that are live at the same time. -/
theorem Routine.allocate_sharing :
    Sharing (declared r.locals) (intervalOf r.locals)
      (storageOf (r.allocate src start).1.locals) := by
  obtain ⟨now, active, h⟩ := allocate_invariant hsrc hclear hstart
  have hne : ∀ {x i}, intervalOf r.locals x = some i → intervalOf r.locals x ≠ none :=
    fun h h' => by rw [h] at h'; cases h'
  exact
    { apart := fun x y i j hxy hsame hassigned hi hj =>
        h.apart (hne hi) (hne hj) hxy hsame hassigned i j hi hj
      placed := fun x i hi => h.placed x (hne hi) i hi
      parameters := fun x y hxy hx hy => h.parameters hx hy hxy }

/-- Every place that a local has got is one that has been used. -/
theorem Routine.allocate_used :
    ∃ held used, Fit (r.allocate src start).2.2 held used 0 ∧
      ∀ x, storageOf (r.allocate src start).1.locals x ≠ .unassigned →
        storageOf (r.allocate src start).1.locals x ∈ used := by
  obtain ⟨now, active, h⟩ := allocate_invariant hsrc hclear hstart
  obtain ⟨used, hfit, hused⟩ := h.fit
  refine ⟨_, used, hfit, fun x hx => hused x ?_ hx⟩
  by_contra hnone
  exact hx (h.outside x hnone)

end

/-! ## What an allocation comes to -/

theorem foldl_stackSlots_le {f : Allocation → Local → Allocation}
    (hf : ∀ a l, (f a l).stackSlots ≤ n ↔ a.stackSlots ≤ n ∧ ∀ k, l.storage = .stack k → k < n)
    (ls : List Local) (a : Allocation) :
    (ls.foldl f a).stackSlots ≤ n ↔ a.stackSlots ≤ n ∧
      ∀ l ∈ ls, ∀ k, l.storage = .stack k → k < n := by
  induction ls generalizing a with
  | nil => simp
  | cons l rest ih =>
    rw [List.foldl_cons, ih, hf, List.forall_mem_cons, and_assoc]

/-- The slots of an allocation reach up to the highest that a local lives in. -/
theorem Allocation.stackSlots_ofLocals_le :
    (Allocation.ofLocals locals).stackSlots ≤ n ↔ ∀ x k, storageOf locals x = .stack k → k < n := by
  unfold ofLocals
  rw [← Array.foldl_toList, foldl_stackSlots_le fun a l => by cases l.storage <;> simp]
  constructor
  · rintro ⟨-, h⟩ x k hx
    unfold storageOf at hx
    cases hl : locals[x]? with
    | none =>
      rw [hl] at hx
      cases hx
    | some l =>
      rw [hl] at hx
      exact h l (Array.mem_toList_iff.mpr (Array.mem_of_getElem? hl)) k hx
  · intro h
    refine ⟨Nat.zero_le n, fun l hl k hk => ?_⟩
    obtain ⟨x, hx⟩ := Array.getElem?_of_mem (Array.mem_toList_iff.mp hl)
    exact h x k (by rw [storageOf, hx]; exact hk)

theorem foldl_spilled {f : Allocation → Local → Allocation}
    (hf : ∀ a l, (f a l).spilled = a.spilled + if l.storage.isStack then 1 else 0) (ls : List Local)
    (a : Allocation) : (ls.foldl f a).spilled = a.spilled + ls.countP (·.storage.isStack) := by
  induction ls generalizing a with
  | nil => rfl
  | cons l rest ih =>
    rw [List.foldl_cons, ih, hf, List.countP_cons]
    omega

theorem Allocation.spilled_ofLocals (locals : Locals) :
    (Allocation.ofLocals locals).spilled = locals.toList.countP (·.storage.isStack) := by
  unfold ofLocals
  rw [← Array.foldl_toList, foldl_spilled fun a l => by cases l.storage <;> simp [Storage.isStack],
    Nat.zero_add]

theorem Storage.isStack_iff {place : Storage} : place.isStack = true ↔
    ∃ slot, place = .stack slot := by
  cases place <;> simp [isStack]

/-- The slot, where the place is one. -/
def Storage.slot? : Storage → Option Nat
  | .stack slot => some slot
  | _ => none

theorem Storage.slot?_eq_some {place : Storage} {slot : Nat} :
    place.slot? = some slot ↔ place = .stack slot := by
  cases place <;> simp [slot?]

theorem Storage.isSome_slot? (place : Storage) : place.slot?.isSome = place.isStack := by
  cases place <;> rfl

theorem storageOf_eq_stack {slot : Nat} :
    storageOf locals x = .stack slot ↔ ∃ l, locals[x]? = some l ∧ l.storage = .stack slot := by
  unfold storageOf
  cases locals[x]? <;> simp

/-- Where the first `n` slots have one local each and there are no others, `n` slots are in use by
`n` locals. -/
theorem Allocation.ofLocals_eq
    (hslots : ∀ slot, (∃ x, storageOf locals x = .stack slot) ↔ slot < n)
    (hdistinct : ∀ x y slot, storageOf locals x = .stack slot → storageOf locals y = .stack slot →
      x = y) : (ofLocals locals).stackSlots = n ∧ (ofLocals locals).spilled = n := by
  set slots := locals.toList.filterMap (·.storage.slot?) with hdef
  have hcount : locals.toList.countP (·.storage.isStack) = slots.length := by
    rw [hdef, List.length_filterMap_eq_countP]
    simp only [Storage.isSome_slot?]
  have hnodup : slots.Nodup := by
    rw [hdef, List.Nodup, List.pairwise_filterMap, List.pairwise_iff_getElem]
    rintro x y hx hy hxy slot hslot _ hslot' rfl
    refine Nat.ne_of_lt hxy (hdistinct x y slot ?_ ?_)
    · exact storageOf_eq_stack.mpr ⟨_, by rw [← Array.getElem?_toList, List.getElem?_eq_getElem hx],
        Storage.slot?_eq_some.mp hslot⟩
    · exact storageOf_eq_stack.mpr ⟨_, by rw [← Array.getElem?_toList, List.getElem?_eq_getElem hy],
        Storage.slot?_eq_some.mp hslot'⟩
  have hmem : ∀ slot, slot ∈ slots ↔ slot ∈ List.range n := by
    intro slot
    simp only [hdef, List.mem_range, ← hslots, List.mem_filterMap, Storage.slot?_eq_some,
      storageOf_eq_stack, Array.mem_toList_iff]
    constructor
    · rintro ⟨l, hl, hslot⟩
      obtain ⟨x, hx⟩ := Array.getElem?_of_mem hl
      exact ⟨x, l, hx, hslot⟩
    · rintro ⟨x, l, hx, hslot⟩
      exact ⟨l, Array.mem_of_getElem? hx, hslot⟩
  constructor
  · refine Nat.le_antisymm (stackSlots_ofLocals_le.mpr fun x slot hx => (hslots slot).mp ⟨x, hx⟩) ?_
    refine Nat.le_of_not_lt fun hlt => ?_
    obtain ⟨x, hx⟩ := (hslots _).mpr hlt
    exact absurd (stackSlots_ofLocals_le.mp (le_refl _) x _ hx) (Nat.lt_irrefl _)
  · rw [spilled_ofLocals, hcount,
      ((List.perm_ext_iff_of_nodup hnodup List.nodup_range).mpr hmem).length_eq, List.length_range]

end Codewright
