import Codewright.Proofs.Native.Correctness
import Codewright.Proofs.SuitedPlaces

/-!
# Where native locals live

Parameters stay in the registers of the calling convention. All other locals live in registers that
the convention leaves to the function, of the class for their type, or on the stack. Every slot is
handed out once; when a local takes over the register of another, that one moves to the new slot. So
the slots are numbered without gaps and each has one local (`Spilled`), and the frame is no larger
than it must be.
-/

namespace Codewright.Native

/-! ## Classes of registers -/

/-- The registers for locals of a type that are no parameters. -/
def localPool (ty : Ty) : List Register :=
  if ty = .real then [.xmm1, .xmm2, .xmm3] else [.rcx, .rdx, .r8, .r9]

theorem localPool_eq (ty : Ty) :
    localPool ty = if usesVector ty then vectorPool else generalPool := by
  cases ty <;> rfl

/-- The registers that no local but a parameter may live in: results are returned in two of them,
and the others are computed in. -/
def reserved : List Register := [.rax, .r10, .r11, .xmm0, .xmm4, .xmm5]

theorem notMem_reserved {ty : Ty} {register : Register} (h : register ∈ localPool ty) :
    register ∉ reserved := by
  have hall : (localPool ty).all (· ∉ reserved) = true := by cases ty <;> decide
  exact of_decide_eq_true (List.all_eq_true.mp hall register h)

namespace RegisterFile

/-- The registers that are free are registers for locals, each in its class. -/
structure Pooled (f : RegisterFile) : Prop where
  general : f.general ⊆ generalPool
  vector : f.vector ⊆ vectorPool

/-- A place for a local that is no parameter: a slot or a register of its class. -/
def Houses (d : Ty × Bool) (place : Storage) : Prop :=
  d.2 = false → place.isStack = true ∨ ∃ register ∈ localPool d.1, place = .register register

theorem Pooled.ofParams (params : List Ty) : Pooled (.ofParams params) where
  general := List.filter_sublist.subset
  vector := List.filter_sublist.subset

theorem Pooled.giveBack {f : RegisterFile} (h : f.Pooled) (place : Storage) :
    (f.giveBack place).Pooled := by
  unfold RegisterFile.giveBack
  split
  · split_ifs with hg hv
    · exact ⟨List.cons_subset.mpr ⟨List.contains_iff_mem.mp hg, h.general⟩, h.vector⟩
    · exact ⟨h.general, List.cons_subset.mpr ⟨List.contains_iff_mem.mp hv, h.vector⟩⟩
    · exact h
  · exact h

theorem Pooled.take {f : RegisterFile} (h : f.Pooled) (ty : Ty) (p : Bool) :
    (f.take ty p).2.Pooled ∧ Houses (ty, p) (f.take ty p).1 := by
  cases p with
  | true =>
    refine ⟨?_, fun hp => absurd hp (by simp)⟩
    unfold RegisterFile.take RegisterFile.takeParameter
    rw [if_pos rfl]
    dsimp only
    split <;> exact ⟨h.general, h.vector⟩
  | false =>
    have hslot : Houses (ty, false) f.freshSlot.1 := fun _ => .inl rfl
    unfold RegisterFile.take
    rw [if_neg Bool.false_ne_true]
    cases hty : usesVector ty with
    | true =>
      rw [if_pos rfl]
      cases hv : f.vector with
      | nil => exact ⟨⟨h.general, h.vector⟩, hslot⟩
      | cons register rest =>
        obtain ⟨hregister, hrest⟩ := List.cons_subset.mp (hv ▸ h.vector)
        exact ⟨⟨h.general, hrest⟩, fun _ => .inr ⟨register, by rwa [localPool_eq, if_pos hty], rfl⟩⟩
    | false =>
      rw [if_neg Bool.false_ne_true]
      cases hg : f.general with
      | nil => exact ⟨⟨h.general, h.vector⟩, hslot⟩
      | cons register rest =>
        obtain ⟨hregister, hrest⟩ := List.cons_subset.mp (hg ▸ h.general)
        refine ⟨⟨hrest, h.vector⟩, fun _ => .inr ⟨register, ?_, rfl⟩⟩
        rwa [localPool_eq, if_neg (by simp [hty])]

theorem suited : source.Suited Pooled fun _ => Houses where
  take := fun ty p h => h.take ty p
  giveBack := fun place h => h.giveBack place
  suits_take := fun _ _ h => h
  suits_giveBack := fun _ h => h

/-! ## Slots -/

theorem slots_giveBack (f : RegisterFile) (place : Storage) :
    (f.giveBack place).slots = f.slots := by
  unfold RegisterFile.giveBack
  split
  · split_ifs <;> rfl
  · rfl

theorem take_cases (f : RegisterFile) (ty : Ty) (p : Bool) :
    ((∀ slot, (f.take ty p).1 ≠ .stack slot) ∧ (f.take ty p).2.slots = f.slots) ∨
      ((f.take ty p).1 = .stack f.slots ∧ (f.take ty p).2.slots = f.slots + 1) := by
  have hregister : ∀ {register : Register} (slot : Nat), Storage.register register ≠
      .stack slot := by
    simp
  unfold RegisterFile.take RegisterFile.takeParameter
  dsimp only
  split_ifs
  · split
    · exact .inl ⟨hregister, rfl⟩
    · exact .inr ⟨rfl, rfl⟩
  · split
    · exact .inl ⟨hregister, rfl⟩
    · exact .inr ⟨rfl, rfl⟩
  · split
    · exact .inl ⟨hregister, rfl⟩
    · exact .inr ⟨rfl, rfl⟩

end RegisterFile

end Codewright.Native

namespace Codewright.Allocator

variable {σ : Type} {s : Allocator σ} {x : LocalId}

/-- However a local is placed, one local that was not on the stack gets the new place, and all
others are on the stack just as they were. -/
theorem stack_place (src : LocationSource σ) (hx : x < s.locals.size)
    (hplace : s.placeOf x = .unassigned)
    (hactive : ∀ a ∈ s.active, a.id ≠ x) (ty : Ty) (p : Bool) (last : Int) :
    ∃ z, (∀ slot, s.placeOf z ≠ .stack slot) ∧
      ∀ y slot, (s.place src x ty p last).placeOf y = .stack slot ↔
        y = z ∧ (src.take s.source ty p).1 = .stack slot ∨ s.placeOf y = .stack slot := by
  rcases place_cases src ty p last hx hactive with hplain | ⟨-, -, v, hv, hreg, -, -, hswap⟩
  · refine ⟨x, by simp [hplace], fun y slot => ?_⟩
    rw [hplain]
    by_cases hyx : y = x
    · simp [hyx, hplace]
    · simp [hyx]
  · have hvstack : ∀ slot, s.placeOf v.id ≠ .stack slot := by
      intro slot hslot
      rw [hslot] at hreg
      cases hreg
    refine ⟨v.id, hvstack, fun y slot => ?_⟩
    rw [hswap]
    by_cases hyx : y = x
    · have hne : x ≠ v.id := (hactive v hv).symm
      simp [hyx, hne, hplace, hvstack]
    · by_cases hyv : y = v.id
      · simp [hyv, hactive v hv, hvstack]
      · simp [hyx, hyv]

end Codewright.Allocator

namespace Codewright.Native

variable {s : Allocator RegisterFile}

/-- Every slot that has been handed out has one local. -/
structure Spilled (s : Allocator RegisterFile) : Prop where
  slots : ∀ slot, (∃ x, s.placeOf x = .stack slot) ↔ slot < s.source.slots
  distinct : ∀ x y slot, s.placeOf x = .stack slot → s.placeOf y = .stack slot → x = y

theorem Spilled.start {locals : Locals} (hclear : ∀ x, storageOf locals x = .unassigned)
    (params : List Ty) : Spilled { locals, source := .ofParams params } where
  slots := by
    intro slot
    constructor
    · rintro ⟨x, hx⟩
      cases (hclear x).symm.trans hx
    · intro hslot
      exact absurd hslot (Nat.not_lt_zero slot)
  distinct := fun x _ _ hx => by cases (hclear x).symm.trans hx

theorem Spilled.expire (h : Spilled s) (first : Int) :
    Spilled (s.expire RegisterFile.source first) := by
  have hslots : (s.expire RegisterFile.source first).source.slots = s.source.slots :=
    Allocator.source_expire_of_giveBack (Q := fun f : RegisterFile => f.slots = s.source.slots)
      (fun f place hf => (f.slots_giveBack place).trans hf) rfl first
  exact ⟨fun slot => by rw [hslots]; exact h.slots slot, h.distinct⟩

theorem Spilled.place (h : Spilled s) {x : LocalId} (hx : x < s.locals.size)
    (hplace : s.placeOf x = .unassigned) (hactive : ∀ a ∈ s.active, a.id ≠ x) (ty : Ty) (p : Bool)
    (last : Int) : Spilled (s.place RegisterFile.source x ty p last) := by
  obtain ⟨z, hz, hstack⟩ := Allocator.stack_place RegisterFile.source hx hplace hactive ty p last
  have hsource : (s.place RegisterFile.source x ty p last).source = (s.source.take ty p).2 := rfl
  rcases s.source.take_cases ty p with ⟨hno, hslots⟩ | ⟨hnew, hslots⟩
  · -- No slot is handed out, so nobody moves to the stack.
    have hsame : ∀ y slot, (s.place RegisterFile.source x ty p last).placeOf y = .stack slot ↔
        s.placeOf y = .stack slot := fun y slot =>
      (hstack y slot).trans (or_iff_right fun hy => hno slot hy.2)
    constructor
    · intro slot
      simp only [hsame, hsource, hslots]
      exact h.slots slot
    · intro y y' slot hy hy'
      exact h.distinct y y' slot ((hsame y slot).mp hy) ((hsame y' slot).mp hy')
  · -- The new slot is above all others, so its local is the only one there.
    have hnext : (RegisterFile.source.take s.source ty p).1 = .stack s.source.slots := hnew
    have hold : ∀ y slot, s.placeOf y = .stack slot → slot < s.source.slots := fun y slot hy =>
      (h.slots slot).mp ⟨y, hy⟩
    simp only [hnext, Storage.stack.injEq] at hstack
    constructor
    · intro slot
      rw [hsource, hslots]
      constructor
      · rintro ⟨y, hy⟩
        rcases (hstack y slot).mp hy with ⟨-, rfl⟩ | hy
        · exact Nat.lt_succ_self _
        · exact Nat.lt_succ_of_lt (hold y slot hy)
      · intro hlt
        rcases Nat.lt_succ_iff_lt_or_eq.mp hlt with hlt | rfl
        · obtain ⟨y, hy⟩ := (h.slots slot).mpr hlt
          exact ⟨y, (hstack y slot).mpr (.inr hy)⟩
        · exact ⟨z, (hstack z _).mpr (.inl ⟨rfl, rfl⟩)⟩
    · intro y y' slot hy hy'
      rcases (hstack y slot).mp hy with ⟨rfl, rfl⟩ | hy
      · rcases (hstack y' _).mp hy' with ⟨rfl, -⟩ | hy'
        · rfl
        · exact absurd (hold y' _ hy') (Nat.lt_irrefl _)
      · rcases (hstack y' slot).mp hy' with ⟨-, rfl⟩ | hy'
        · exact absurd (hold y _ hy) (Nat.lt_irrefl _)
        · exact h.distinct y y' slot hy hy'

theorem carried_spilled {Fit : RegisterFile → Set Storage → Set Storage → Nat → Prop}
    {decl : LocalId → Option (Ty × Bool)} {iv : LocalId → Option Interval}
    {order : List (LocalId × Interval)} :
    Allocator.Carried RegisterFile.source Fit decl iv order fun _ s => Spilled s where
  expire := fun _ _ h => h.expire _
  skip := fun _ _ _ _ _ _ h => h
  place := by
    intro before x i after s n ty p _ hx _ hI _ hd _ h
    exact h.place (hI.seating.lt_size hd) (hI.outside x hx)
      (fun a ha hax => hx (hax ▸ (hI.active a ha).1)) ty p i.last

/-! ## Routines -/

/-- Native locals live where the calling convention wants them. With at most four parameters, each
parameter stays in the register in which it arrives. All other locals with a place are on the stack
or in a register of their class that the function may use and does not compute in. Locals with
overlapping intervals have different places. All along, no register is free twice. No two locals
share a slot, and there are as many slots as there are locals on the stack. -/
theorem places_by_convention {r : Routine} (h : r.Arranged) (hcount : r.paramCount ≤ 4) :
    let start := RegisterFile.ofParams r.paramTypes
    let allocated := r.computeIntervals.allocate RegisterFile.source start
    let place := storageOf allocated.1.locals
    (∀ k < r.paramCount, ∃ register, argumentRegister? k (r.localType (k + 1)) = some register ∧
      place (k + 1) = .register register) ∧
    (∀ x ∉ r.parameters, place x ≠ .unassigned →
      (∃ slot, place x = .stack slot) ∨ ∃ register, place x = .register register ∧
        register ∈ localPool (r.localType x) ∧ register ∉ reserved) ∧
    (∀ x y i j, x ≠ y → r.computedInterval x = some i → r.computedInterval y = some j →
      i.overlaps j = true → place x ≠ .unassigned → place x ≠ place y) ∧
    (∀ f ∈ Allocator.sources RegisterFile.source (allocationOrder r.computeIntervals.locals)
      { locals := r.computeIntervals.locals, source := start }, (f.general ++ f.vector).Nodup) ∧
    (∀ x y slot, place x = .stack slot → place y = .stack slot → x = y) ∧
    allocated.2.1.stackSlots = allocated.1.locals.toList.countP (·.storage.isStack) ∧
    allocated.2.1.spilled = allocated.2.1.stackSlots ∧
    allocated.2.1.stackSlots = allocated.2.2.slots := by
  intro start allocated place
  -- One run carries both what suits the locals and how they are spilled.
  have hstart : RegisterFile.Fits start ∅ ∅ _ := h.fits_ofParams h.countP_parameters_le
  obtain ⟨⟨now, active, hI, hsuitable, hspilled⟩, hsources⟩ :=
    Routine.allocate_carries RegisterFile.lawful r.storageOf_computeIntervals hstart
      ((Allocator.carried_suitable RegisterFile.suited).and carried_spilled)
      ⟨⟨.ofParams _, fun x _ _ hx => absurd (r.storageOf_computeIntervals x) hx⟩,
        .start r.storageOf_computeIntervals _⟩
  obtain ⟨hslots, hcounted⟩ := Allocation.ofLocals_eq hspilled.slots hspilled.distinct
  refine ⟨fun k hk => ?_, fun x hx hne => ?_, ?_, fun f hf => ?_, hspilled.distinct, ?_,
    hcounted.trans hslots.symm, hslots⟩
  · obtain ⟨register, hregister⟩ := exists_parameterRegister (Nat.lt_of_lt_of_le hk hcount)
      (r.localType (k + 1))
    refine ⟨register, by rw [argumentRegister?_eq, hregister], ?_⟩
    exact place_parameter_eq_register h hk (h.paramTypes_eq_localType hk) hregister
  · obtain ⟨⟨ty, p⟩, hd⟩ := exists_declared_of_storageOf hne
    have hd := (hI.decls x).symm.trans hd
    have hty : r.localType x = ty :=
      Routine.localType_eq_of_declared ((r.declared_computeIntervals x).symm.trans hd)
    have hp : p = false := by
      cases p with
      | false => rfl
      | true =>
        exact absurd (Routine.mem_parameters.mpr ⟨ty, r.declared_computeIntervals x ▸ hd⟩) hx
    rw [hty]
    rcases hsuitable.suits x _ hd hne hp with hstack | ⟨register, hregister, hplace⟩
    · exact .inl (Storage.isStack_iff.mp hstack)
    · exact .inr ⟨register, hplace, hregister, notMem_reserved hregister⟩
  · intro x y i j hxy hi hj hoverlaps hne
    exact (Target.x64.layout_of_arranged h).place_ne hxy hi hj hoverlaps hne
  · obtain ⟨held, used, n, hfit⟩ := hsources f hf
    exact hfit.nodup
  · rw [← Allocation.spilled_ofLocals]
    exact hslots.trans hcounted.symm

/-- Reals that outnumber the registers: two of them are on the stack, and the register of a
parameter is used again. -/
theorem places_by_convention_spilling : let r := Spilling.routine.toInPlace.1
    let allocated := r.computeIntervals.allocate RegisterFile.source (.ofParams r.paramTypes)
    let place := storageOf allocated.1.locals
    r.Arranged ∧ r.paramCount ≤ 4 ∧ place 1 = .register Register.rcx ∧
      place 2 = .register Register.xmm1 ∧ place 4 ≠ place 6 ∧ allocated.2.1.stackSlots = 2 := by
  have h : Spilling.routine.toInPlace.1.Arranged :=
    (built_of_buildRoutine Spilling.buildRoutine_function).toWellScoped.toInPlace.arranged
  have hcount : Spilling.routine.toInPlace.1.paramCount ≤ 4 := by decide
  have hint : Spilling.routine.toInPlace.1.localType 1 = .int := by decide
  have hreal : Spilling.routine.toInPlace.1.localType 2 = .real := by decide
  have hlong : Spilling.routine.toInPlace.1.computedInterval 4 = some ⟨1, 12⟩ := by decide +kernel
  have hinner : Spilling.routine.toInPlace.1.computedInterval 6 = some ⟨3, 11⟩ := by decide +kernel
  have htwo : (Spilling.routine.toInPlace.1.computeIntervals.allocate RegisterFile.source
      (.ofParams Spilling.routine.toInPlace.1.paramTypes)).2.2.slots = 2 := by cbv
  obtain ⟨hparams, -, hapart, -, -, -, -, hslots⟩ := places_by_convention h hcount
  refine ⟨h, hcount, ?_, ?_, ?_, hslots.trans htwo⟩
  · obtain ⟨register, hregister, hplace⟩ := hparams 0 (by decide)
    rw [hint] at hregister
    cases hregister
    exact hplace
  · obtain ⟨register, hregister, hplace⟩ := hparams 1 (by decide)
    rw [hreal] at hregister
    cases hregister
    exact hplace
  · have hplaced := (Target.x64.layout_of_arranged h).placed 4 _ hlong
    exact hapart 4 6 _ _ (by decide) hlong hinner (by decide) (hplaced.mpr (.inl (by decide)))

end Codewright.Native
