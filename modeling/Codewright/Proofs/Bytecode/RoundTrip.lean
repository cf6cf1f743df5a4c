import Codewright.Proofs.Bytecode.Assembly
import Codewright.Proofs.Bytecode.Image

/-!
# Compiled programs as images

A program can be read back from its image if no type in it is missing and its parameters have slots.
Every compiled program is like that: a slot has the type of a local that has lived in it, which is a
parameter or is mentioned in the body, and the parameters live in the first slots.
-/

namespace Codewright

namespace Bytecode

/-! ## The types of slots -/

namespace SlotPool

theorem mem_types_take {p : SlotPool} {ty ty' : Ty} {isParameter : Bool}
    (h : ty' ∈ (p.take ty isParameter).2.types) : ty' ∈ p.types ∨ ty' = ty := by
  have hfresh : ty' ∈ (p.fresh ty).2.types → ty' ∈ p.types ∨ ty' = ty := Array.mem_push.mp
  unfold take at h
  split at h
  · exact hfresh h
  · split at h
    · exact .inl h
    · exact hfresh h

end SlotPool

section

variable {s : Allocator SlotPool} {ty : Ty}

theorem mem_types_visit {x : LocalId} {i : Interval}
    (h : ty ∈ (s.visit SlotPool.source x i).source.types) :
    ty ∈ s.source.types ∨ ∃ p, declared s.locals x = some (ty, p) := by
  unfold Allocator.visit at h
  dsimp only at h
  split at h
  · rw [SlotPool.types_expire] at h
    exact .inl h
  · next ty' isParameter hd =>
    split at h
    · rw [SlotPool.types_expire] at h
      exact .inl h
    · rw [Allocator.source_place] at h
      rcases SlotPool.mem_types_take h with h | rfl
      · rw [SlotPool.types_expire] at h
        exact .inl h
      · exact .inr ⟨isParameter, hd⟩

theorem mem_types_visits {order : List (LocalId × Interval)}
    (h : ty ∈ (order.foldl (fun s (x, i) => s.visit SlotPool.source x i) s).source.types) :
    ty ∈ s.source.types ∨ ∃ e ∈ order, ∃ p, declared s.locals e.1 = some (ty, p) := by
  induction order generalizing s with
  | nil => exact .inl h
  | cons e rest ih =>
    rw [List.foldl_cons] at h
    rcases ih h with h | ⟨e', he', p, hp⟩
    · exact (mem_types_visit h).imp_right fun hd => ⟨e, List.mem_cons_self, hd⟩
    · rw [Allocator.declared_visit] at hp
      exact .inr ⟨e', List.mem_cons_of_mem _ he', p, hp⟩

end

/-- A slot of a routine has the type of a parameter or of a local that the body mentions. -/
theorem mem_types_slotForm {r : Routine} {ty : Ty} (h : ty ∈ (slotForm r).2.types) :
    ∃ x, (x ∈ r.removeSingleUses.1.parameters ∨ x ∈ r.removeSingleUses.1.body.mentions) ∧
      r.removeSingleUses.1.localType x = ty := by
  rcases mem_types_visits h with h | ⟨⟨x, i⟩, he, p, hp⟩
  · exact absurd h (Array.not_mem_empty _)
  · rw [Routine.declared_computeIntervals] at hp
    refine ⟨x, ?_, Routine.localType_eq_of_declared hp⟩
    by_contra hne
    obtain ⟨hparam, hmention⟩ := not_or.mp hne
    have hsome := mem_allocationOrder.mp he
    cases (Routine.computedInterval_eq_none hparam hmention).symm.trans hsome

/-! ## Compiled programs -/

section

variable {symbols : Symbols} {r : Routine} {symbol : FunctionSymbol} {d : Surface.Function}
  {constants : Array Constant} {f : Function}

theorem ofName_ne_noType (name : TypeName) : Ty.ofName name ≠ .noType := by
  cases name <;> exact nofun

/-- The function of a built routine has all its types, and slots for its parameters. -/
theorem Generated.complete (hf : Generated constants r f) (hb : r.Built symbols)
    (hof : r.Of symbol d) (hresult : symbol.result ≠ .noType) : f.Complete := by
  have hb' := hb.removeSingleUses
  have hparams : ∀ x ∈ r.removeSingleUses.1.parameters,
      r.removeSingleUses.1.localType x ≠ .noType := by
    intro x hx
    rw [hb'.arranged.mem_parameters_iff] at hx
    obtain ⟨k, hk, rfl⟩ := hx
    have hk' : k < d.params.length := hof.paramCount ▸ hk
    have hd := hof.params k _ (List.getElem?_eq_getElem hk')
    rw [← r.declared_removeSingleUses] at hd
    rw [Routine.localType_eq_of_declared hd]
    exact ofName_ne_noType _
  have hmentions : ∀ x ∈ r.removeSingleUses.1.body.mentions,
      r.removeSingleUses.1.localType x ≠ .noType := by
    refine hb'.forall_mentions (fun x hv hno => ?_) hparams
    rw [hno] at hv
    cases hv
  refine ⟨by rwa [hf.result, hof.result], fun slot hslot => ?_, ?_⟩
  · have hmem : slot.ty ∈ (slotForm r).2.types := by
      rw [← Array.mem_toList_iff, ← hf.slots]
      exact List.mem_map_of_mem (Array.mem_toList_iff.mpr hslot)
    obtain ⟨x, hx, hty⟩ := mem_types_slotForm hmem
    rw [← hty]
    exact hx.elim (hparams x) (hmentions x)
  · -- the last parameter has the slot of its number
    rw [hf.paramCount]
    cases hn : r.paramCount with
    | zero => exact Nat.zero_le _
    | succ k =>
      have hk : k < r.removeSingleUses.1.paramCount := by
        show k < r.paramCount
        omega
      exact hf.slot_lt (place_parameter_eq_slot hb'.arranged hk)

end

theorem complete_of_compile {options : Options} {modules : List Surface.Module} {p : Program}
    (h : (compile options modules).artifact = some (.bytecode p)) : p.Complete := by
  intro f hf
  obtain ⟨symbols, rs, hrs, hfs⟩ := generated_of_compile h
  obtain ⟨n, m, d, r, -, hb, hof, hgenerated⟩ :=
    generated_routine hrs hfs (Array.mem_toList_iff.mpr hf)
  exact hgenerated.complete hb hof (ofName_ne_noType d.result)

/-- Images go both ways. A program without a missing type and with slots for its parameters is read
back from its image, whatever follows, with nothing changed but the names; what has been read from
any bytes is written in as many bytes as it took, and read from these it is the same but for the
names of constants. Every compiled program is of the first kind. -/
theorem images_round_trip :
    (∀ (p : Program) (bytes rest : List UInt8), p.Complete → p.bytes = .ok bytes →
      Program.read (bytes ++ rest) = .ok (p.asRead, rest)) ∧
    (∀ (bytes rest : List UInt8) (q : Program), Program.read bytes = .ok (q, rest) →
      ∃ image, q.bytes = .ok image ∧ image.length + rest.length = bytes.length ∧
        ∀ rest' : List UInt8, Program.read (image ++ rest') =
          .ok ({ q with constants := q.constants.map Constant.asRead }, rest')) ∧
    ∀ (options : Options) (modules : List Surface.Module) (p : Program),
      (compile options modules).artifact = some (.bytecode p) → p.Complete := by
  refine ⟨fun p bytes rest hp h => Program.read_bytes hp h rest, fun bytes rest q h => ?_,
    fun options modules p h => complete_of_compile h⟩
  obtain ⟨hcomplete, hsame, image, himage, hlen⟩ := Program.bytes_of_read h
  refine ⟨image, himage, hlen, fun rest' => ?_⟩
  rw [Program.read_bytes hcomplete himage rest']
  show Except.ok (Program.mk (q.constants.map Constant.asRead) q.asRead.functions q.main, rest') = _
  rw [hsame]

/-- The image of a program with two functions, read with other bytes behind it and written again. -/
theorem images_round_trip_descending :
    ∃ p bytes, (compile { target := .bytecode, optimize := false } [Descending.program]).artifact =
        some (.bytecode p) ∧
      p.bytes = .ok bytes ∧ Program.read (bytes ++ [0, 1]) = .ok (p.asRead, [0, 1]) ∧
      ∃ image, p.asRead.bytes = .ok image ∧ image.length = bytes.length := by
  obtain ⟨p, -, hcompile, hconstants, hfunctions⟩ := assemble_descending
  have hcount : p.functions.size = 2 := by simpa using congrArg List.length hfunctions
  have hbody : ∀ f ∈ p.functions.toList, ∃ body, f.bytes = .ok body := by
    intro f hf
    have hmem :=
      List.mem_map_of_mem (f := fun f : Function => (f.paramCount, f.slots.size, f.code.size)) hf
    rw [hfunctions] at hmem
    simp only [List.mem_cons, Prod.mk.injEq, List.not_mem_nil, or_false] at hmem
    exact ⟨_, Function.bytes_eq_ok.mpr ⟨by omega, by omega, by omega, rfl⟩⟩
  obtain ⟨bodies, hbodies⟩ := exists_forall₂ hbody
  obtain ⟨bytes, hbytes⟩ : ∃ bytes, p.bytes = .ok bytes :=
    ⟨_, Program.bytes_eq_ok.mpr ⟨by omega, by omega, bodies, hbodies, rfl⟩⟩
  have hread := images_round_trip.1 p bytes [0, 1] (images_round_trip.2.2 _ _ p hcompile) hbytes
  obtain ⟨image, himage, hlen, -⟩ := images_round_trip.2.1 _ _ _ hread
  refine ⟨p, bytes, hcompile, hbytes, hread, image, himage, ?_⟩
  rw [List.length_append] at hlen
  omega

end Bytecode

end Codewright
