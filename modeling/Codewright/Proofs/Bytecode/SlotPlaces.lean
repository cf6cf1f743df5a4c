import Codewright.Proofs.ParameterPlaces
import Codewright.Proofs.SuitedPlaces

/-!
# The slots of a routine

Every local lives in a slot of its type. All along, a slot is either free or held by an active local
(`Tallied`), so a new one is made just when the active locals of its type hold all that there are.
Hence a routine has no more slots of a type than it has parameters of the type, or than some local
found active when it was placed (`Tight`).
-/

namespace Codewright.Bytecode

namespace SlotPool

/-! ## Types of slots -/

/-- Slots are free for their own types. -/
def Sorted (p : SlotPool) : Prop := ∀ ty, ∀ slot ∈ p.freeOf ty, p.types[slot]? = some ty

/-- A slot of the type of a declaration. -/
def Houses (p : SlotPool) (d : Ty × Bool) (place : Storage) : Prop :=
  ∃ slot, place = .stack slot ∧ p.types[slot]? = some d.1

variable {p : SlotPool}

/-- A slot is taken from the free ones of its type, or it is new: because it is for a parameter or
because none is free. -/
theorem take_cases (p : SlotPool) (ty : Ty) (isParameter : Bool) :
    (∃ slot rest, p.freeOf ty = slot :: rest ∧
      p.take ty isParameter = (.stack slot, { p with free := p.free.insert ty rest })) ∨
    ((isParameter = true ∨ p.freeOf ty = []) ∧ p.take ty isParameter = p.fresh ty) := by
  unfold take
  cases isParameter with
  | true => exact .inr ⟨.inl rfl, rfl⟩
  | false =>
    rw [if_neg Bool.false_ne_true]
    cases hfree : p.freeOf ty with
    | nil => exact .inr ⟨.inr rfl, rfl⟩
    | cons slot rest => exact .inl ⟨slot, rest, rfl, rfl⟩

theorem getElem?_types_fresh {slot : Nat} {ty : Ty} (h : p.types[slot]? = some ty) (ty' : Ty) :
    (p.fresh ty').2.types[slot]? = some ty := by
  have hlt := (Array.getElem?_eq_some_iff.mp h).1
  rw [fresh, Array.getElem?_push_lt hlt, ← Array.getElem?_eq_getElem hlt, h]

theorem count_types_fresh (p : SlotPool) (ty ty' : Ty) :
    (p.fresh ty).2.types.count ty' = p.types.count ty' + if ty = ty' then 1 else 0 := by
  simp [fresh, Array.count_push]

theorem getElem?_types_take {slot : Nat} {ty : Ty} (h : p.types[slot]? = some ty) (ty' : Ty)
    (isParameter : Bool) : (p.take ty' isParameter).2.types[slot]? = some ty := by
  rcases p.take_cases ty' isParameter with ⟨_, _, -, htake⟩ | ⟨-, htake⟩
  · rw [htake]
    exact h
  · rw [htake]
    exact getElem?_types_fresh h ty'

theorem Sorted.take (h : p.Sorted) (ty : Ty) (isParameter : Bool) :
    (p.take ty isParameter).2.Sorted ∧
      (p.take ty isParameter).2.Houses (ty, isParameter) (p.take ty isParameter).1 := by
  rcases p.take_cases ty isParameter with ⟨slot, rest, hfree, htake⟩ | ⟨-, htake⟩
  · rw [htake]
    refine ⟨fun ty' slot' hslot' => ?_, slot, rfl, h ty slot (by simp [hfree])⟩
    rw [freeOf_insert] at hslot'
    split at hslot'
    · next heq =>
      subst heq
      exact h ty' slot' (by rw [hfree]; exact List.mem_cons_of_mem _ hslot')
    · exact h ty' slot' hslot'
  · rw [htake]
    exact ⟨fun ty' slot' hslot' => getElem?_types_fresh (h ty' slot' hslot') ty,
      _, rfl, Array.getElem?_push_size⟩

theorem Sorted.giveBack (h : p.Sorted) (place : Storage) : (p.giveBack place).Sorted := by
  intro ty slot hslot
  rw [types_giveBack]
  cases place with
  | unassigned => exact h ty slot hslot
  | register => exact h ty slot hslot
  | stack slot' =>
    simp only [SlotPool.giveBack] at hslot
    split at hslot
    · next ty' hty' =>
      rw [freeOf_insert] at hslot
      split at hslot
      · next heq =>
        subst heq
        rcases List.mem_cons.mp hslot with rfl | hslot
        · exact hty'
        · exact h ty slot hslot
      · exact h ty slot hslot
    · exact h ty slot hslot

theorem suited : source.Suited Sorted Houses where
  take := fun ty p h => h.take ty p
  giveBack := fun place h => h.giveBack place
  suits_take := fun ty p ⟨slot, hplace, hty⟩ => ⟨slot, hplace, getElem?_types_take hty ty p⟩
  suits_giveBack := fun place ⟨slot, hplace, hty⟩ =>
    ⟨slot, hplace, by rw [show source.giveBack _ place = SlotPool.giveBack _ place from rfl,
      types_giveBack]; exact hty⟩

/-! ## Free slots -/

theorem length_freeOf_giveBack {slot : Nat} {ty : Ty} (h : p.types[slot]? = some ty) (ty' : Ty) :
    ((p.giveBack (.stack slot)).freeOf ty').length =
      (p.freeOf ty').length + if ty = ty' then 1 else 0 := by
  simp only [SlotPool.giveBack, h, freeOf_insert]
  by_cases hty : ty' = ty
  · simp [hty]
  · simp [hty, Ne.symm hty]

/-- Every place that is given back is a free slot more of its type. -/
theorem length_freeOf_foldl (locals : Locals) (tyOf : LocalId → Ty) (ty : Ty) {ended : List Active}
    (h : ∀ a ∈ ended, ∃ slot, storageOf locals a.id = .stack slot ∧
      p.types[slot]? = some (tyOf a.id)) :
    ((ended.foldl (fun p a => source.giveBack p (storageOf locals a.id)) p).freeOf ty).length =
      (p.freeOf ty).length + ended.countP (tyOf ·.id == ty) := by
  induction ended generalizing p with
  | nil => rfl
  | cons a rest ih =>
    obtain ⟨slot, hplace, hslot⟩ := h a List.mem_cons_self
    rw [List.foldl_cons, hplace, ih fun b hb => ?_, List.countP_cons]
    · have hlength := length_freeOf_giveBack hslot ty
      simp only [beq_iff_eq]
      rw [show source.giveBack p (.stack slot) = p.giveBack (.stack slot) from rfl, hlength]
      omega
    · obtain ⟨slot', hplace', hslot'⟩ := h b (List.mem_cons_of_mem _ hb)
      exact ⟨slot', hplace', (congrArg (·[slot']?) (types_giveBack p _)).trans hslot'⟩

end SlotPool

/-! ## Slots are free or held -/

section

variable {decl : LocalId → Option (Ty × Bool)} {iv : LocalId → Option Interval}
  {tyOf : LocalId → Ty} {order : List (LocalId × Interval)} {s : Allocator SlotPool}

/-- The slots have the types of those that live there, and each is either free or held. -/
structure Tallied (decl : LocalId → Option (Ty × Bool)) (tyOf : LocalId → Ty)
    (s : Allocator SlotPool) : Prop extends
    Allocator.Suitable SlotPool.Sorted SlotPool.Houses decl s where
  tally : ∀ ty, s.source.types.count ty =
    (s.source.freeOf ty).length + s.active.countP (tyOf ·.id == ty)

theorem Tallied.expire (h : Tallied decl tyOf s) (htype : ∀ x d, decl x = some d → tyOf x = d.1)
    (hdecls : ∀ x, declared s.locals x = decl x)
    (hactive : ∀ a ∈ s.active, s.placeOf a.id ≠ .unassigned) (first : Int) :
    Tallied decl tyOf (s.expire SlotPool.source first) := by
  refine ⟨h.toSuitable.expire SlotPool.suited first, fun ty => ?_⟩
  have hended : ∀ a ∈ s.active.filter (·.last ≤ first), ∃ slot,
      storageOf s.locals a.id = .stack slot ∧ s.source.types[slot]? = some (tyOf a.id) := by
    intro a ha
    have hplace := hactive a (List.mem_of_mem_filter ha)
    obtain ⟨d, hd⟩ := exists_declared_of_storageOf hplace
    have hd := (hdecls a.id).symm.trans hd
    rw [htype a.id d hd]
    exact h.suits a.id d hd hplace
  have hfree := SlotPool.length_freeOf_foldl s.locals tyOf ty hended
  have hsplit : s.active.countP (tyOf ·.id == ty) =
      (s.active.filter (·.last ≤ first)).countP (tyOf ·.id == ty) +
        (s.active.filter (first < ·.last)).countP (tyOf ·.id == ty) := by
    rw [List.countP_eq_countP_filter_add s.active _ (·.last ≤ first)]
    simp only [← decide_not, Int.not_le]
  rw [SlotPool.types_expire, h.tally ty, Allocator.source_expire, hfree,
    Allocator.active_expire, hsplit]
  omega

theorem Tallied.place (h : Tallied decl tyOf s) (htype : ∀ x d, decl x = some d → tyOf x = d.1)
    {x : LocalId} {ty : Ty} {p : Bool} {last : Int}
    (hsuitable : Allocator.Suitable SlotPool.Sorted SlotPool.Houses decl
      (s.place SlotPool.source x ty p last)) (hd : decl x = some (ty, p)) :
    Tallied decl tyOf (s.place SlotPool.source x ty p last) := by
  refine ⟨hsuitable, fun ty' => ?_⟩
  have hactive : (s.place SlotPool.source x ty p last).active.countP (tyOf ·.id == ty') =
      s.active.countP (tyOf ·.id == ty') + if ty = ty' then 1 else 0 := by
    rw [Allocator.active_place, (Active.insert_perm _ _).countP_eq, List.countP_cons, htype x _ hd]
    simp
  rw [hactive, Allocator.source_place]
  have htally := h.tally ty'
  rcases s.source.take_cases ty p with ⟨slot, rest, hfree, htake⟩ | ⟨-, htake⟩
  · rw [show SlotPool.source.take s.source ty p = s.source.take ty p from rfl, htake,
      SlotPool.freeOf_insert]
    by_cases hty : ty' = ty
    · subst hty
      rw [hfree, List.length_cons] at htally
      simp only [if_true]
      omega
    · rw [if_neg hty, if_neg (Ne.symm hty)]
      exact htally
  · rw [show SlotPool.source.take s.source ty p = s.source.take ty p from rfl, htake]
    have hfree : (s.source.fresh ty).2.freeOf ty' = s.source.freeOf ty' := rfl
    rw [SlotPool.count_types_fresh, hfree]
    omega

theorem carried_tallied {Fit : SlotPool → Set Storage → Set Storage → Nat → Prop}
    (htype : ∀ x d, decl x = some d → tyOf x = d.1) :
    Allocator.Carried SlotPool.source Fit decl iv order fun _ s => Tallied decl tyOf s where
  expire := fun hI _ h => h.expire htype hI.decls (fun a ha => (hI.active a ha).2.1) _
  skip := fun _ _ _ _ _ _ h => h
  place := by
    intro before x i after s n ty p hcut hx hi hI hactive hd hneeds h
    have hsuitable : Allocator.Carried SlotPool.source Fit decl iv order fun _ s =>
        Allocator.Suitable SlotPool.Sorted SlotPool.Houses decl s :=
      Allocator.carried_suitable SlotPool.suited
    exact h.place htype (hsuitable.place hcut hx hi hI hactive hd hneeds h.toSuitable) hd

end

end Codewright.Bytecode

namespace Codewright.Routine

open Allocator (IsParameter)

/-! ## Active locals -/

/-- Whether `y` holds its place when `x` is placed: its turn came no later, and its interval ends
behind the beginning of `x`. -/
def holdsAt (r : Routine) (place : LocalId → Storage) (x y : LocalId) : Bool :=
  match r.computedInterval x, r.computedInterval y with
  | some i, some j =>
    place y != .unassigned && (j.first < i.first || j.first == i.first && y ≤ x) && i.first < j.last
  | _, _ => false

/-- The number of locals of a type that hold their places when `x` is placed. -/
def activeAt (r : Routine) (place : LocalId → Storage) (ty : Ty) (x : LocalId) : Nat :=
  (List.range r.locals.size).countP fun y => r.localType y == ty && r.holdsAt place x y

variable {r : Routine} {place : LocalId → Storage} {x y : LocalId} {i : Interval}

theorem holdsAt_iff (hi : r.computedInterval x = some i) : r.holdsAt place x y = true ↔
    ∃ j, r.computedInterval y = some j ∧ place y ≠ .unassigned ∧
      (j.first < i.first ∨ j.first = i.first ∧ y ≤ x) ∧ i.first < j.last := by
  unfold holdsAt
  rw [hi]
  cases r.computedInterval y with
  | none => simp
  | some j => simp [and_assoc]

/-- The locals that have been visited are those before in the order. -/
theorem mem_visited_iff {before after : List (LocalId × Interval)}
    (hcut : allocationOrder r.computeIntervals.locals = before ++ (x, i) :: after) {j : Interval}
    (hj : r.computedInterval y = some j) (hyx : y ≠ x) :
    y ∈ Allocator.visited before ↔ j.first < i.first ∨ j.first = i.first ∧ y ≤ x := by
  have hlex := allocationOrder_lex r.computeIntervals.locals
  have hmem : ∀ e ∈ allocationOrder r.computeIntervals.locals, e.1 = y → e.2 = j := by
    rintro e he rfl
    exact Option.some.inj ((mem_allocationOrder.mp he).symm.trans hj)
  rw [hcut, List.pairwise_append, List.pairwise_cons] at hlex
  obtain ⟨-, ⟨hafter, -⟩, hbefore⟩ := hlex
  constructor
  · intro hy
    obtain ⟨e, he, rfl⟩ := List.mem_map.mp hy
    obtain rfl := hmem e (hcut ▸ List.mem_append_left _ he) rfl
    exact (hbefore e he _ List.mem_cons_self).imp_right fun h => ⟨h.1, Nat.le_of_lt h.2⟩
  · intro hle
    have hy : (y, j) ∈ before ++ (x, i) :: after := hcut ▸ mem_allocationOrder.mpr hj
    rcases List.mem_append.mp hy with hy | hy
    · exact List.mem_map.mpr ⟨_, hy, rfl⟩
    · rcases List.mem_cons.mp hy with heq | hy
      · exact absurd (congrArg Prod.fst heq) hyx
      · -- What comes behind `x` begins later, or at the same point with a greater number.
        rcases hafter _ hy with hlt | ⟨heq, hlt⟩
        · exact absurd hle (by dsimp only at hlt; omega)
        · rcases hle with hlt' | ⟨-, hle⟩
          · exact absurd heq hlt'.ne'
          · exact absurd hle (Nat.not_le.mpr hlt)

section

variable {σ : Type} {Fit : σ → Set Storage → Set Storage → Nat → Prop} {s : Allocator σ} {n : Nat}
  {before after : List (LocalId × Interval)}

theorem nodup_active
    (hI : Allocator.Invariant Fit (declared r.computeIntervals.locals) r.computedInterval s i.first
      (Allocator.visited before) n) (hx : x ∉ Allocator.visited before) (last : Int) :
    ((Active.insert ⟨x, last⟩ s.active).map (·.id)).Nodup := by
  rw [((Active.insert_perm _ _).map _).nodup_iff, List.map_cons, List.nodup_cons]
  constructor
  · intro hmem
    obtain ⟨a, ha, rfl⟩ := List.mem_map.mp hmem
    exact hx (hI.active a ha).1
  · exact List.pairwise_map.mpr (hI.distinct.imp fun hne hsame => hne (by rw [hsame]))

variable
  (hplaced : ∀ y j, r.computedInterval y = some j →
    (place y ≠ .unassigned ↔ j.first ≠ j.last ∨ IsParameter (declared r.computeIntervals.locals) y))
  (hcut : allocationOrder r.computeIntervals.locals = before ++ (x, i) :: after)
  (hx : x ∉ Allocator.visited before) (hi : r.computedInterval x = some i)
  (hI : Allocator.Invariant Fit (declared r.computeIntervals.locals) r.computedInterval s i.first
    (Allocator.visited before) n) (hactive : ∀ a ∈ s.active, i.first < a.last)
    (hne : i.first ≠ i.last)

include hplaced hcut hi hI hactive hne

/-- The active locals behind a placing are those that hold their places then. -/
theorem mem_active_iff :
    y ∈ (Active.insert ⟨x, i.last⟩ s.active).map (·.id) ↔ r.holdsAt place x y = true := by
  rw [holdsAt_iff hi, ((Active.insert_perm _ _).map _).mem_iff, List.map_cons, List.mem_cons]
  by_cases hyx : y = x
  · subst hyx
    simp only [true_or, true_iff]
    exact ⟨i, hi, (hplaced y i hi).mpr (.inl hne), .inr ⟨rfl, le_refl _⟩,
      lt_of_le_of_ne (computedInterval_le hi) hne⟩
  · simp only [hyx, false_or]
    constructor
    · intro hy
      obtain ⟨a, ha, rfl⟩ := List.mem_map.mp hy
      obtain ⟨hdone, hassigned, j, hj, hlast⟩ := hI.active a ha
      refine ⟨j, hj, ?_, (mem_visited_iff hcut hj hyx).mp hdone, hlast ▸ hactive a ha⟩
      exact (hplaced a.id j hj).mpr ((hI.placed a.id hdone j hj).mp hassigned)
    · rintro ⟨j, hj, hassigned, hearlier, hlast⟩
      have hdone := (mem_visited_iff hcut hj hyx).mpr hearlier
      have hassigned := (hI.placed y hdone j hj).mpr ((hplaced y j hj).mp hassigned)
      rcases hI.ended y hdone hassigned with ⟨a, ha, rfl⟩ | hended
      · exact List.mem_map_of_mem ha
      · exact absurd (hended j hj) (Int.not_le.mpr hlast)

include hx

theorem countP_active_eq (ty : Ty) :
    (Active.insert ⟨x, i.last⟩ s.active).countP (r.localType ·.id == ty) =
      r.activeAt place ty x := by
  have hlt : ∀ y, r.holdsAt place x y = true → y < r.locals.size := by
    intro y hy
    obtain ⟨j, hj, -⟩ := (holdsAt_iff hi).mp hy
    obtain ⟨l, hl, -⟩ := Option.bind_eq_some_iff.mp hj
    exact r.size_computeIntervals ▸ (Array.getElem?_eq_some_iff.mp hl).1
  have hperm : (((Active.insert ⟨x, i.last⟩ s.active).map (·.id)).filter (r.localType · == ty)).Perm
      ((List.range r.locals.size).filter fun y => r.localType y == ty && r.holdsAt place x y) := by
    refine (List.perm_ext_iff_of_nodup ((nodup_active hI hx _).filter _)
      (List.nodup_range.filter _)).mpr fun y => ?_
    rw [List.mem_filter, List.mem_filter, mem_active_iff hplaced hcut hi hI hactive hne,
      Bool.and_eq_true, List.mem_range]
    exact ⟨fun ⟨hy, hty⟩ => ⟨hlt y hy, hty, hy⟩, fun ⟨_, hty, hy⟩ => ⟨hy, hty⟩⟩
  have hlength := hperm.length_eq
  rwa [← List.countP_eq_length_filter, ← List.countP_eq_length_filter, List.countP_map] at hlength

end

theorem parameter_of_mem_before {before after : List (LocalId × Interval)}
    (hcut : allocationOrder r.computeIntervals.locals = before ++ (x, i) :: after)
    (hx : x ∈ r.parameters) {e : LocalId × Interval} (he : e ∈ before) : e.1 ∈ r.parameters := by
  obtain ⟨j, hj, hfirst⟩ := computedInterval_parameter hx
  have hxi : (x, i) ∈ allocationOrder r.computeIntervals.locals :=
    hcut ▸ List.mem_append_right _ List.mem_cons_self
  obtain rfl := Option.some.inj (hj.symm.trans (mem_allocationOrder.mp hxi))
  have hsorted := allocationOrder_sorted r.computeIntervals.locals
  rw [hcut, List.pairwise_append] at hsorted
  have hle := hsorted.2.2 e he _ List.mem_cons_self
  by_contra hother
  have hge := computedInterval_other hother
    (mem_allocationOrder.mp (hcut ▸ List.mem_append_left _ he))
  dsimp only at hle
  omega

end Codewright.Routine

namespace Codewright.Bytecode

open Allocator (IsParameter)

/-! ## Slots are made only when they are needed -/

section

variable {r : Routine} {place : LocalId → Storage} {before after : List (LocalId × Interval)}
  {s : Allocator SlotPool} {ty : Ty}

/-- The parameters of a type among visits. -/
def parametersOf (r : Routine) (visits : List (LocalId × Interval)) (ty : Ty) : Nat :=
  visits.countP fun e => declared r.computeIntervals.locals e.1 = some (ty, true)

/-- A visit that places a local which is no parameter. -/
def PlacesOther (r : Routine) (e : LocalId × Interval) : Prop :=
  e.1 ∉ r.parameters ∧ e.2.first ≠ e.2.last

/-- There are slots for all, and no more of a type than the parameters have or than some local found
active when it was placed. -/
structure Tight (r : Routine) (place : LocalId → Storage) (before : List (LocalId × Interval))
    (s : Allocator SlotPool) : Prop extends
    Tallied (declared r.computeIntervals.locals) r.localType s where
  parameters_le : ∀ ty, parametersOf r before ty ≤ s.source.types.count ty
  active_le : ∀ ty, ∀ e ∈ before, PlacesOther r e →
    r.activeAt place ty e.1 ≤ s.source.types.count ty
  attained : ∀ ty, s.source.types.count ty = parametersOf r before ty ∨
    ∃ e ∈ before, PlacesOther r e ∧ s.source.types.count ty = r.activeAt place ty e.1

variable {x : LocalId} {i : Interval}

theorem parametersOf_append (r : Routine) (before : List (LocalId × Interval)) {t : Ty} {p : Bool}
    (hd : declared r.computeIntervals.locals x = some (t, p))
    (ty : Ty) : parametersOf r (before ++ [(x, i)]) ty =
      parametersOf r before ty + if t = ty ∧ p = true then 1 else 0 := by
  rw [parametersOf, List.countP_append, List.countP_singleton, hd]
  simp [parametersOf]

theorem parametersOf_append_other {t : Ty}
    (hd : declared r.computeIntervals.locals x = some (t, false)) (ty : Ty) :
    parametersOf r (before ++ [(x, i)]) ty = parametersOf r before ty := by
  rw [parametersOf_append r before hd, if_neg (by simp), Nat.add_zero]

theorem Tight.start (r : Routine) (place : LocalId → Storage) :
    Tight r place [] { locals := r.computeIntervals.locals, source := {} } where
  good := fun ty slot hslot => by simp [SlotPool.freeOf] at hslot
  suits := fun x _ _ hx => absurd (r.storageOf_computeIntervals x) hx
  tally := fun ty => by simp [SlotPool.freeOf]
  parameters_le := fun _ => Nat.zero_le _
  active_le := fun _ e he => absurd he List.not_mem_nil
  attained := fun ty => .inl (by simp [parametersOf])

theorem Tight.skip (h : Tight r place before s)
    (hd : declared r.computeIntervals.locals x = some (ty, false)) (hpoint : i.first = i.last) :
    Tight r place (before ++ [(x, i)]) s where
  toTallied := h.toTallied
  parameters_le := fun ty' => by
    rw [parametersOf_append_other hd]
    exact h.parameters_le ty'
  active_le := by
    intro ty' e he hother
    rcases List.mem_append.mp he with he | he
    · exact h.active_le ty' e he hother
    · rw [List.mem_singleton.mp he] at hother
      exact absurd hpoint hother.2
  attained := by
    intro ty'
    rw [parametersOf_append_other hd]
    exact (h.attained ty').imp_right fun ⟨e, he, hother⟩ => ⟨e, List.mem_append_left _ he, hother⟩

/-- Parameters come first and get new slots, so until the last of them there are no others. -/
theorem Tight.placeParameter (h : Tight r place before s)
    (htallied : Tallied (declared r.computeIntervals.locals) r.localType
      (s.place SlotPool.source x ty true i.last))
    (hd : declared r.computeIntervals.locals x = some (ty, true))
    (hbefore : ∀ e ∈ before ++ [(x, i)], e.1 ∈ r.parameters) :
    Tight r place (before ++ [(x, i)]) (s.place SlotPool.source x ty true i.last) := by
  have hcount : ∀ ty', (s.place SlotPool.source x ty true i.last).source.types.count ty' =
      parametersOf r (before ++ [(x, i)]) ty' := by
    intro ty'
    have hold : s.source.types.count ty' = parametersOf r before ty' :=
      (h.attained ty').resolve_right fun ⟨e, he, hother, _⟩ =>
        hother.1 (hbefore e (List.mem_append_left _ he))
    have hfresh := s.source.count_types_fresh ty ty'
    rw [parametersOf_append r before hd, ← hold]
    simp only [and_true]
    exact hfresh
  exact
    { toTallied := htallied
      parameters_le := fun ty' => (hcount ty').ge
      active_le := fun ty' e he hother => absurd (hbefore e he) hother.1
      attained := fun ty' => .inl (hcount ty') }

/-- A new slot is made only when all of its type are held, and then as many locals are active. -/
theorem Tight.placeOther (h : Tight r place before s)
    (htallied : Tallied (declared r.computeIntervals.locals) r.localType
      (s.place SlotPool.source x ty false i.last))
    (hd : declared r.computeIntervals.locals x = some (ty, false)) (hother : PlacesOther r (x, i))
    (hactive : ∀ ty', (s.place SlotPool.source x ty false i.last).active.countP
      (r.localType ·.id == ty') = r.activeAt place ty' x) :
    Tight r place (before ++ [(x, i)]) (s.place SlotPool.source x ty false i.last) := by
  set s' := s.place SlotPool.source x ty false i.last
  -- Only the type of `x` can get a slot, and then it has none that is free.
  have hgrown : ∀ ty', s'.source.types.count ty' = s.source.types.count ty' ∨
      s.source.types.count ty' ≤ s'.source.types.count ty' ∧ s'.source.freeOf ty' = [] := by
    intro ty'
    have hsource : s'.source = (s.source.take ty false).2 := rfl
    rw [hsource]
    rcases s.source.take_cases ty false with ⟨slot, rest, -, htake⟩ | ⟨hnone, htake⟩
    · rw [htake]
      exact .inl rfl
    · rw [htake, SlotPool.count_types_fresh]
      by_cases hty : ty = ty'
      · subst hty
        exact .inr ⟨Nat.le_add_right _ _, hnone.resolve_left Bool.false_ne_true⟩
      · rw [if_neg hty]
        exact .inl rfl
  have hle : ∀ ty', s.source.types.count ty' ≤ s'.source.types.count ty' := fun ty' =>
    (hgrown ty').elim (fun heq => heq.ge) fun hgrown => hgrown.1
  refine
    { toTallied := htallied
      parameters_le := fun ty' => ?_
      active_le := fun ty' e he he' => ?_
      attained := fun ty' => ?_ }
  · rw [parametersOf_append_other hd]
    exact (h.parameters_le ty').trans (hle ty')
  · rcases List.mem_append.mp he with he | he
    · exact (h.active_le ty' e he he').trans (hle ty')
    · rw [List.mem_singleton.mp he, ← hactive ty', htallied.tally ty']
      exact Nat.le_add_left _ _
  · rcases hgrown ty' with hsame | ⟨-, hnone⟩
    · rw [hsame, parametersOf_append_other hd]
      exact (h.attained ty').imp_right fun ⟨e, he, he'⟩ => ⟨e, List.mem_append_left _ he, he'⟩
    · -- With none free, the tally says that the active locals hold all slots of the type.
      refine .inr ⟨(x, i), List.mem_append_right _ List.mem_cons_self, hother, ?_⟩
      rw [htallied.tally ty', hnone, ← hactive ty', List.length_nil, Nat.zero_add]

theorem carried_tight {Fit : SlotPool → Set Storage → Set Storage → Nat → Prop}
    (hplaced : ∀ y j, r.computedInterval y = some j → (place y ≠ .unassigned ↔
      j.first ≠ j.last ∨ IsParameter (declared r.computeIntervals.locals) y)) :
    Allocator.Carried SlotPool.source Fit (declared r.computeIntervals.locals)
      (intervalOf r.computeIntervals.locals) (allocationOrder r.computeIntervals.locals)
      (Tight r place) := by
  have htype : ∀ x d, declared r.computeIntervals.locals x = some d → r.localType x = d.1 :=
    fun x d hd => Routine.localType_eq_of_declared ((r.declared_computeIntervals x).symm.trans hd)
  have hparameter : ∀ {x ty p}, declared r.computeIntervals.locals x = some (ty, p) →
      (x ∈ r.parameters ↔ p = true) := by
    intro x ty p hd
    rw [Routine.mem_parameters, ← r.declared_computeIntervals, hd]
    simp
  have htallied : Allocator.Carried SlotPool.source Fit (declared r.computeIntervals.locals)
      (intervalOf r.computeIntervals.locals) (allocationOrder r.computeIntervals.locals)
      fun _ s => Tallied (declared r.computeIntervals.locals) r.localType s := carried_tallied htype
  refine ⟨?_, ?_, ?_⟩
  · intro before s now n first hI hle h
    have htypes := SlotPool.types_expire s first
    refine
      { toTallied := htallied.expire hI hle h.toTallied
        parameters_le := ?_
        active_le := ?_
        attained := ?_ }
    · rw [htypes]
      exact h.parameters_le
    · rw [htypes]
      exact h.active_le
    · rw [htypes]
      exact h.attained
  · intro before x i after s n ty _ _ _ _ hd hpoint h
    exact h.skip hd hpoint
  · intro before x i after s n ty p hcut hx hi hI hactive hd hneeds h
    have htallied := htallied.place hcut hx hi hI hactive hd hneeds h.toTallied
    cases p with
    | true =>
      have hparam := (hparameter hd).mpr rfl
      refine h.placeParameter htallied hd fun e he => ?_
      rcases List.mem_append.mp he with he | he
      · exact Routine.parameter_of_mem_before hcut hparam he
      · rwa [List.mem_singleton.mp he]
    | false =>
      have hne : i.first ≠ i.last := hneeds.resolve_right Bool.false_ne_true
      have hother : PlacesOther r (x, i) :=
        ⟨fun hx => Bool.false_ne_true ((hparameter hd).mp hx), hne⟩
      exact h.placeOther htallied hd hother
        (Routine.countP_active_eq hplaced hcut hx hi hI hactive hne)

end

/-! ## Routines -/

/-- The parameters that are visited have the types that the routine gives for them. -/
theorem parametersOf_allocationOrder {r : Routine} (h : r.Arranged) (ty : Ty) :
    parametersOf r (allocationOrder r.computeIntervals.locals) ty = r.paramTypes.count ty := by
  obtain ⟨ps, rest, horder, hps⟩ := h.allocationOrder_eq
  have hrest : parametersOf r rest ty = 0 := by
    refine List.countP_eq_zero.mpr fun e he hd => ?_
    rw [decide_eq_true_eq, r.declared_computeIntervals] at hd
    have hnodup := allocationOrder_nodup r.computeIntervals.locals
    rw [horder, List.map_append, hps] at hnodup
    refine (List.nodup_append.mp hnodup).2.2 e.1 ?_ e.1 (List.mem_map_of_mem he) rfl
    rw [List.mem_range'_1, Nat.add_comm, Nat.lt_succ_iff]
    exact (h.params e.1).mp (Routine.mem_parameters.mpr ⟨ty, hd⟩)
  have htype : ∀ x ∈ List.range' 1 r.paramCount,
      decide (declared r.computeIntervals.locals x = some (ty, true)) = true ↔
        (r.localType x == ty) = true := by
    intro x hx
    rw [List.mem_range'_1, Nat.add_comm, Nat.lt_succ_iff] at hx
    obtain ⟨ty', hd⟩ := Routine.mem_parameters.mp ((h.params x).mpr hx)
    rw [r.declared_computeIntervals, hd, Routine.localType_eq_of_declared hd]
    simp
  calc parametersOf r (allocationOrder r.computeIntervals.locals) ty
      = parametersOf r ps ty + parametersOf r rest ty := by
        rw [horder]
        exact List.countP_append
    _ = (List.range' 1 r.paramCount).countP fun x =>
          decide (declared r.computeIntervals.locals x = some (ty, true)) := by
        rw [hrest, ← hps, List.countP_map]
        rfl
    _ = (List.range' 1 r.paramCount).countP (r.localType · == ty) := List.countP_congr htype
    _ = r.paramTypes.count ty := by
        rw [h.paramTypes_eq, List.count, List.countP_map]
        rfl

/-- A slot that is made for a local which is no parameter is made because none of its type is
free. -/
theorem freeOf_eq_nil_of_made {s : Allocator SlotPool} {x : LocalId} {i : Interval} {ty : Ty}
    (hd : declared s.locals x = some (ty, false))
    (h : (s.visit SlotPool.source x i).source.types ≠ s.source.types) :
    (s.expire SlotPool.source i.first).source.freeOf ty = [] := by
  have hexpire := SlotPool.types_expire s i.first
  rcases Allocator.visit_cases SlotPool.source i hd with ⟨-, -, hvisit⟩ | ⟨-, hvisit⟩
  · rw [hvisit] at h
    exact absurd hexpire h
  · rw [hvisit, Allocator.source_place] at h
    rcases (s.expire SlotPool.source i.first).source.take_cases ty false with
      ⟨slot, rest, -, htake⟩ | ⟨hnone, -⟩
    · rw [show SlotPool.source.take = SlotPool.take from rfl, htake] at h
      exact absurd hexpire h
    · exact hnone.resolve_left Bool.false_ne_true

/-- Slots are typed, ordered and tight. The parameters are in the first slots, in order. Every local
with a place is in a slot of its type, and locals with overlapping intervals are in different slots.
Of each type there are as many slots as there are parameters, or as many as locals hold a place when
some local that is no parameter is placed, whichever is most. So no slot is made for such a local
while one of its type is free. -/
theorem slots_typed_and_tight {r : Routine} (h : r.Arranged) :
    let begun : Allocator SlotPool := { locals := r.computeIntervals.locals, source := {} }
    let allocated := r.computeIntervals.allocate SlotPool.source {}
    let place := storageOf allocated.1.locals
    let pool := allocated.2.2
    (∀ k < r.paramCount, place (k + 1) = .stack k) ∧
    (∀ x, place x ≠ .unassigned →
      ∃ slot, place x = .stack slot ∧ pool.types[slot]? = some (r.localType x)) ∧
    (∀ x y i j, x ≠ y → r.computedInterval x = some i → r.computedInterval y = some j →
      i.overlaps j = true → place x ≠ .unassigned → place x ≠ place y) ∧
    (∀ ty, IsGreatest
      (insert (r.paramTypes.count ty)
        {n | ∃ x, x ∉ r.parameters ∧ place x ≠ .unassigned ∧ n = r.activeAt place ty x})
      (pool.types.count ty)) ∧
    ∀ before x i after, allocationOrder r.computeIntervals.locals = before ++ (x, i) :: after →
      let s := before.foldl (fun s (x, i) => s.visit SlotPool.source x i) begun
      (s.visit SlotPool.source x i).source.types ≠ s.source.types →
        x ∈ r.parameters ∨
          (s.expire SlotPool.source i.first).source.freeOf (r.localType x) = [] := by
  intro begun allocated place pool
  have hlayout := Target.bytecode.layout_of_arranged h
  have hdecls : declared r.computeIntervals.locals = declared r.locals :=
    funext r.declared_computeIntervals
  have hplaced : ∀ y j, r.computedInterval y = some j → (place y ≠ .unassigned ↔
      j.first ≠ j.last ∨ IsParameter (declared r.computeIntervals.locals) y) := by
    rw [hdecls]
    exact hlayout.placed
  -- tightness is carried along the whole allocation
  obtain ⟨⟨now, active, hI, htight⟩, -⟩ := Routine.allocate_carries SlotPool.lawful
    r.storageOf_computeIntervals (.empty _) (carried_tight hplaced) (.start r place)
  refine ⟨fun k hk => place_parameter_eq_slot h hk, fun x hx => ?_, ?_, fun ty => ⟨?_, ?_⟩, ?_⟩
  · obtain ⟨d, hd⟩ := exists_declared_of_storageOf hx
    have hd := (hI.decls x).symm.trans hd
    rw [Routine.localType_eq_of_declared (hdecls ▸ hd)]
    exact htight.suits x d hd hx
  · intro x y i j hxy hi hj hoverlaps hne
    exact hlayout.place_ne hxy hi hj hoverlaps hne
  · rcases htight.attained ty with heq | ⟨e, he, hother, heq⟩
    · exact .inl (heq.trans (parametersOf_allocationOrder h ty))
    · exact .inr ⟨e.1, hother.1, (hplaced e.1 e.2 (mem_allocationOrder.mp he)).mpr (.inl hother.2),
        heq⟩
  · rintro n (rfl | ⟨x, hx, hne, rfl⟩)
    · exact parametersOf_allocationOrder h ty ▸ htight.parameters_le ty
    · obtain ⟨i, hi⟩ := Option.ne_none_iff_exists'.mp fun hnone =>
        hne (hI.outside x fun hx => hx hnone)
      refine htight.active_le ty (x, i) (mem_allocationOrder.mpr hi) ⟨hx, ?_⟩
      refine ((hplaced x i hi).mp hne).resolve_right fun hparam => hx ?_
      exact Routine.mem_parameters.mpr (hdecls ▸ hparam)
  · intro before x i after hcut s hmade
    have hmem : (x, i) ∈ allocationOrder r.computeIntervals.locals :=
      hcut ▸ List.mem_append_right _ List.mem_cons_self
    obtain ⟨ty, p, hd⟩ := declared_of_mem_allocationOrder hmem
    have hds : declared s.locals x = some (ty, p) :=
      (Allocator.declared_visits before begun x).trans hd
    rw [hdecls] at hd
    cases p with
    | true => exact .inl (Routine.mem_parameters.mpr ⟨ty, hd⟩)
    | false =>
      rw [Routine.localType_eq_of_declared hd]
      exact .inr (freeOf_eq_nil_of_made hds hmade)

/-- A routine with a parameter that is not used, and with locals that live one after the other. -/
def recycling : Routine where
  id := 0
  fullName := "main.recycling"
  locals := #[
    { name := "$result", ty := .void },
    { name := "idle", ty := .int, isParameter := true },
    { name := "n", ty := .int, uses := 1, isParameter := true },
    { name := "a", ty := .int, assignments := 1, uses := 1 },
    { name := "b", ty := .int, assignments := 1, uses := 1 },
    { name := "c", ty := .int, assignments := 1, uses := 1 }]
  paramCount := 2
  body := .seq { ty := .void } [
    .const { ty := .int, store := some 3 } (.int 1),
    .const { ty := .int, store := some 4 } (.int 2),
    .print { ty := .void } [.load { ty := .int } 3, .load { ty := .int } 4],
    .const { ty := .int, store := some 5 } (.int 3),
    .print { ty := .void } [.load { ty := .int } 5, .load { ty := .int } 2]]

/-- The slot of the idle parameter is used again, and there is a third slot because two locals are
active beside the other parameter when the second one is placed. -/
theorem slots_typed_and_tight_recycling :
    let allocated := recycling.computeIntervals.allocate SlotPool.source {}
    let place := storageOf allocated.1.locals
    recycling.Arranged ∧ place 1 = .stack 0 ∧ place 2 = .stack 1 ∧ place 3 ≠ place 4 ∧
      allocated.2.2.types.count .int = 3 ∧ recycling.activeAt place .int 4 ≤ 3 := by
  have h : recycling.Arranged := by decide
  have hthree : (recycling.computeIntervals.allocate SlotPool.source {}).2.2.types.count
      .int = 3 := by
    cbv
  have hfirst : recycling.computedInterval 3 = some ⟨0, 2⟩ := by decide +kernel
  have hsecond : recycling.computedInterval 4 = some ⟨1, 3⟩ := by decide +kernel
  have hplaced := (Target.bytecode.layout_of_arranged h).placed
  obtain ⟨hparams, -, hapart, htight, -⟩ := slots_typed_and_tight h
  refine ⟨h, hparams 0 (by decide), hparams 1 (by decide), ?_, hthree, ?_⟩
  · exact hapart 3 4 _ _ (by decide) hfirst hsecond (by decide)
      ((hplaced 3 _ hfirst).mpr (.inl (by decide)))
  · rw [← hthree]
    refine (htight .int).2 (.inr ⟨4, ?_, (hplaced 4 _ hsecond).mpr (.inl (by decide)), rfl⟩)
    rw [h.params]
    decide

end Codewright.Bytecode
