import Codewright.Bytecode.Slot
import Codewright.Proofs.Allocation

/-!
# The slots keep their promises

A slot is free for one type only, its own, and stands at most once among the free ones.
-/

namespace Codewright.Bytecode.SlotPool

/-- The slots fit what is out: free slots are not held, and no slot is used that does not exist. -/
structure Fits (p : SlotPool) (held used : Set Storage) (_ : Nat) : Prop where
  held_used : held ⊆ used
  used_lt : ∀ place ∈ used, ∃ slot, place = .stack slot ∧ slot < p.types.size
  nodup : ∀ ty, (p.freeOf ty).Nodup
  typed : ∀ ty, ∀ slot ∈ p.freeOf ty, p.types[slot]? = some ty
  free : ∀ ty, ∀ slot ∈ p.freeOf ty, .stack slot ∉ held

variable {p : SlotPool} {held used : Set Storage} {n : Nat}

/-- The free slots of one type do not bear on those of another. -/
theorem freeOf_insert (p : SlotPool) (ty ty' : Ty) (slots : List Nat) :
    freeOf { p with free := p.free.insert ty slots } ty' =
      if ty' = ty then slots else p.freeOf ty' := by
  simp only [freeOf, Std.HashMap.getD_insert]
  by_cases h : ty = ty'
  · simp [h]
  · have h' : ¬ ty' = ty := fun h' => h h'.symm
    simp [h, h']

theorem types_giveBack (p : SlotPool) (place : Storage) : (p.giveBack place).types = p.types := by
  unfold giveBack
  split
  · split <;> rfl
  · rfl

/-- No slot is out at the start. -/
theorem Fits.empty (n : Nat) : Fits {} ∅ ∅ n where
  held_used := fun _ h => h
  used_lt := by simp
  nodup := by simp [freeOf]
  typed := by simp [freeOf]
  free := by simp

/-- A fresh slot has never been out. -/
theorem Fits.fresh_not_used (h : Fits p held used n) : .stack p.types.size ∉ used := by
  intro hmem
  obtain ⟨slot, hslot, hlt⟩ := h.used_lt _ hmem
  cases hslot
  omega

/-- A fresh slot goes out. -/
theorem Fits.fresh (h : Fits p held used n) (ty : Ty) (n' : Nat) :
    Fits (p.fresh ty).2 (insert (.stack p.types.size) held) (insert (.stack p.types.size) used) n'
    where
  held_used := Set.insert_subset_insert h.held_used
  used_lt := by
    rintro place (rfl | hmem)
    · exact ⟨_, rfl, by simp [SlotPool.fresh]⟩
    · obtain ⟨slot, rfl, hlt⟩ := h.used_lt _ hmem
      exact ⟨slot, rfl, by simp [SlotPool.fresh]; omega⟩
  nodup := h.nodup
  typed := by
    intro ty' slot hslot
    have hty := h.typed ty' slot hslot
    have hlt := (Array.getElem?_eq_some_iff.mp hty).1
    simpa [SlotPool.fresh, Array.getElem?_push, Nat.ne_of_lt hlt] using hty
  free := by
    intro ty' slot hslot hmem
    have hlt := (Array.getElem?_eq_some_iff.mp (h.typed ty' slot hslot)).1
    rcases hmem with heq | hmem
    · cases heq
      omega
    · exact h.free ty' slot hslot hmem

/-- A free slot goes out again. -/
theorem Fits.take_free (h : Fits p held used n) {ty : Ty} {slot : Nat} {rest : List Nat}
    (hfree : p.freeOf ty = slot :: rest) :
    Fits { p with free := p.free.insert ty rest } (insert (.stack slot) held)
      (insert (.stack slot) used) n := by
  have hslot : slot ∈ p.freeOf ty := by simp [hfree]
  have hty := h.typed ty slot hslot
  have hnodup := h.nodup ty
  rw [hfree, List.nodup_cons] at hnodup
  have hsub : ∀ ty', ∀ s ∈ freeOf { p with free := p.free.insert ty rest } ty',
      s ∈ p.freeOf ty' ∧ s ≠ slot := by
    intro ty' s hs
    rw [freeOf_insert] at hs
    split at hs
    · next heq =>
      subst heq
      exact ⟨by simp [hfree, hs], fun h => hnodup.1 (h ▸ hs)⟩
    · next hne =>
      refine ⟨hs, fun heq => hne ?_⟩
      have := h.typed ty' s hs
      rw [heq, hty] at this
      exact (Option.some.inj this).symm
  refine
    { held_used := Set.insert_subset_insert h.held_used
      used_lt := ?_
      nodup := ?_
      typed := fun ty' s hs => h.typed ty' s (hsub ty' s hs).1
      free := ?_ }
  · rintro place (rfl | hmem)
    · exact ⟨slot, rfl, (Array.getElem?_eq_some_iff.mp hty).1⟩
    · exact h.used_lt _ hmem
  · intro ty'
    rw [freeOf_insert]
    split
    · exact hnodup.2
    · exact h.nodup ty'
  · rintro ty' s hs (heq | hmem)
    · exact (hsub ty' s hs).2 (Storage.stack.inj heq)
    · exact h.free ty' s (hsub ty' s hs).1 hmem

/-- A slot that is given back is free. -/
theorem Fits.giveBack (h : Fits p held used n) {place : Storage} (hplace : place ∈ held) :
    Fits (p.giveBack place) (held \ {place}) used n := by
  obtain ⟨slot, rfl, hlt⟩ := h.used_lt _ (h.held_used hplace)
  have hty : p.types[slot]? = some p.types[slot] := Array.getElem?_eq_getElem hlt
  generalize p.types[slot] = ty at hty
  have hnot : slot ∉ p.freeOf ty := fun hmem => h.free ty slot hmem hplace
  simp only [SlotPool.giveBack, hty]
  refine
    { held_used := fun _ hmem => h.held_used hmem.1
      used_lt := h.used_lt
      nodup := ?_
      typed := ?_
      free := ?_ }
  · intro ty'
    rw [freeOf_insert]
    split
    · exact List.nodup_cons.mpr ⟨hnot, h.nodup ty⟩
    · exact h.nodup ty'
  · intro ty' s hs
    rw [freeOf_insert] at hs
    split at hs
    · next heq =>
      subst heq
      rcases List.mem_cons.mp hs with rfl | hs
      · exact hty
      · exact h.typed _ s hs
    · exact h.typed ty' s hs
  · rintro ty' s hs ⟨hmem, hne⟩
    rw [freeOf_insert] at hs
    split at hs
    · next heq =>
      subst heq
      rcases List.mem_cons.mp hs with rfl | hs
      · exact hne rfl
      · exact h.free _ s hs hmem
    · exact h.free ty' s hs hmem

/-- The pool gives out each slot to one holder at a time. -/
theorem lawful : source.Lawful Fits where
  take := by
    intro p held used n ty h
    have hreg : ∀ place ∈ used, place.isRegister = false := fun place hmem => by
      obtain ⟨slot, rfl, -⟩ := h.used_lt place hmem
      rfl
    simp only [source, take, Bool.false_eq_true, if_false]
    split
    · next slot rest hfree =>
      exact ⟨by simp, h.free ty slot (by simp [hfree]), fun _ => .inr hreg, h.take_free hfree⟩
    · exact ⟨by simp [SlotPool.fresh], fun hmem => h.fresh_not_used (h.held_used hmem),
        fun _ => .inr hreg, h.fresh ty n⟩
  takeParameter := by
    intro p held used n ty h
    simp only [source, take, if_true]
    exact ⟨by simp [SlotPool.fresh], h.fresh_not_used, h.fresh ty n⟩
  giveBack := fun h hplace => h.giveBack hplace
  held_used := fun h => h.held_used

theorem types_expire (s : Allocator SlotPool) (first : Int) :
    (s.expire source first).source.types = s.source.types :=
  Allocator.source_expire_of_giveBack (Q := fun p => p.types = s.source.types)
    (fun p place h => (types_giveBack p place).trans h) rfl first

end Codewright.Bytecode.SlotPool
