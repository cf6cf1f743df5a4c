import Codewright.Proofs.Bytecode.Emission
import Codewright.Proofs.ShortestDecimals

/-!
# The pool of constants

A pool is known by the names of its constants. Each name stands for one value, up to what is not a
number, so the number of a constant leads back to the constant, and calls that come later change
nothing about it.
-/

namespace Codewright.Bytecode

/-! ## Pools by their names -/

/-- Constants of one name; their values are the same, or both are not a number. -/
def Constant.Alike (c d : Constant) : Prop :=
  c.name = d.name ∧ (c.value = d.value ∨ c.value.IsNaN ∧ d.value.IsNaN)

namespace ConstantPool

variable {pool pool' pool'' : ConstantPool} {ms ns : Finset String}

/-- The names under which constants are pooled. -/
def names (pool : ConstantPool) : Finset String := (pool.entries.toList.map (·.name)).toFinset

/-- There are numbers for the constants and for what has one of the names. -/
def Room (pool : ConstantPool) (ns : Finset String) : Prop := (pool.names ∪ ns).card ≤ 32768

/-- A pool that has got just constants with these names. -/
structure Takes (pool : ConstantPool) (ns : Finset String) (pool' : ConstantPool) : Prop where
  grows : pool.Grows pool'
  names_eq : pool'.names = pool.names ∪ ns

theorem mem_names {name : String} :
    name ∈ pool.names ↔ ∃ (k : Nat) (c : Constant), pool.entries[k]? = some c ∧ c.name = name := by
  rw [names, List.mem_toFinset, List.mem_map]
  constructor
  · rintro ⟨c, hc, rfl⟩
    obtain ⟨k, hk⟩ := List.getElem?_of_mem hc
    exact ⟨k, c, by rwa [← Array.getElem?_toList], rfl⟩
  · rintro ⟨k, c, hc, rfl⟩
    exact ⟨c, Array.mem_toList_iff.mpr (Array.mem_of_getElem? hc), rfl⟩

theorem Sound.index_eq_none_iff (h : pool.Sound) {name : String} :
    pool.index[name]? = none ↔ name ∉ pool.names := by
  rw [mem_names]
  constructor
  · rintro hnone ⟨k, c, hc, rfl⟩
    obtain ⟨n, hn, -⟩ := h.listed k c hc
    rw [hnone] at hn
    cases hn
  · intro hout
    cases hindex : pool.index[name]? with
    | none => rfl
    | some n =>
      obtain ⟨k, -, c, hc, hname⟩ := h.indexed name n hindex
      exact absurd ⟨k, c, hc, hname⟩ hout

/-- No name is pooled twice. -/
theorem Sound.nodup (h : pool.Sound) : (pool.entries.toList.map (·.name)).Nodup := by
  rw [List.nodup_iff_getElem?_ne_getElem?]
  intro i j hij hj heq
  rw [List.length_map, Array.length_toList] at hj
  have hi : i < pool.entries.size := hij.trans hj
  have hname : pool.entries[i].name = pool.entries[j].name := by
    simpa [List.getElem?_map, hi, hj] using heq
  obtain ⟨m, hm, hmi⟩ := h.listed i _ (Array.getElem?_eq_getElem hi)
  obtain ⟨n, hn, hnj⟩ := h.listed j _ (Array.getElem?_eq_getElem hj)
  rw [hname, hn] at hm
  obtain rfl := Option.some.inj hm
  omega

theorem Sound.card_names (h : pool.Sound) : pool.names.card = pool.entries.size := by
  rw [names, List.toFinset_card_of_nodup h.nodup, List.length_map, Array.length_toList]

theorem Sound.card_names_le (h : pool.Sound) : pool.names.card ≤ 32768 := by
  rw [h.card_names]
  by_contra hlarge
  obtain ⟨n, -, hn⟩ := h.listed 32768 _ (Array.getElem?_eq_getElem (by omega))
  have := n.toInt_lt
  omega

theorem Takes.refl (h : pool.Sound) : pool.Takes ∅ pool := ⟨.refl h, (Finset.union_empty _).symm⟩

theorem Takes.trans (h : pool.Takes ms pool') (h' : pool'.Takes ns pool'') :
    pool.Takes (ms ∪ ns) pool'' :=
  ⟨h.grows.trans h'.grows, by rw [h'.names_eq, h.names_eq, Finset.union_assoc]⟩

/-- There was room for what a pool has taken. -/
theorem Takes.room (h : pool.Takes ns pool') : pool.Room ns := by
  rw [Room, ← h.names_eq]
  exact h.grows.sound.card_names_le

theorem Room.left (h : pool.Room (ms ∪ ns)) : pool.Room ms :=
  (Finset.card_le_card (Finset.union_subset_union_right Finset.subset_union_left)).trans h

theorem Room.right (h : pool.Room (ms ∪ ns)) (htakes : pool.Takes ms pool') : pool'.Room ns := by
  rw [Room, htakes.names_eq, Finset.union_assoc]
  exact h

/-- Constants under one name are alike, also in different pools. -/
theorem Sound.alike (h : pool.Sound) (h' : pool'.Sound) {k l : Nat} {c d : Constant}
    (hc : pool.entries[k]? = some c) (hd : pool'.entries[l]? = some d) (hname : c.name = d.name) :
    c.Alike d := by
  refine ⟨hname, Value.eq_of_poolName ?_⟩
  rw [← h.named c (Array.mem_toList_iff.mpr (Array.mem_of_getElem? hc)), hname,
    h'.named d (Array.mem_toList_iff.mpr (Array.mem_of_getElem? hd))]

theorem Sound.intern_of_name (h : pool.Sound) {value : Value} {k : Nat} {c : Constant}
    (hc : pool.entries[k]? = some c) (hname : c.name = value.poolName) :
    ∃ n : Int16, n.toInt = k ∧ pool.intern value = (.ok n, pool) := by
  obtain ⟨n, hn, hk⟩ := h.listed k c hc
  refine ⟨n, hk, ?_⟩
  rw [hname] at hn
  simp only [intern, hn]

/-- A constant that has been given a number is there under its name. -/
theorem Sound.takes (h : pool.Sound) {value : Value} {n : Int16}
    (hn : pool.intern value = (.ok n, pool')) : pool.Takes {value.poolName} pool' ∧
      ∃ (k : Nat) (c : Constant), n.toInt = k ∧ pool'.entries[k]? = some c ∧
          c.name = value.poolName := by
  have hcases := pool.interned value
  rw [hn] at hcases
  cases hcases with
  | found hindex =>
    obtain ⟨k, hk, c, hc, hname⟩ := h.indexed _ n hindex
    refine ⟨⟨.refl h, ?_⟩, k, c, hk, hc, hname⟩
    rw [Finset.union_eq_left.mpr
      (Finset.singleton_subset_iff.mpr (mem_names.mpr ⟨k, c, hc, hname⟩))]
  | added hnew hk =>
    refine ⟨⟨h.push hnew hk, ?_⟩, _, _, hk, Array.getElem?_push_size, rfl⟩
    simp [names]

/-- There is no number left exactly if the pool is full and the name is new. -/
theorem Sound.intern_eq_error_iff (h : pool.Sound) (value : Value) :
    (∃ e, (pool.intern value).1 = .error e) ↔
      pool.entries.size = 32768 ∧ value.poolName ∉ pool.names := by
  have hle := h.card_names_le
  rw [h.card_names] at hle
  have hcases := pool.interned value
  generalize pool.intern value = result at hcases ⊢
  cases hcases with
  | @found n hindex =>
    obtain ⟨k, -, c, hc, hname⟩ := h.indexed _ n hindex
    simp [mem_names.mpr ⟨k, c, hc, hname⟩]
  | @added n hnew hn =>
    have hlt := n.toInt_lt
    simp only [reduceCtorEq, exists_false, false_iff, not_and]
    omega
  | @full e hnew _ hfull =>
    exact ⟨fun _ => ⟨by omega, h.index_eq_none_iff.mp hnew⟩, fun _ => ⟨e, rfl⟩⟩

theorem intern_snd_of_error {value : Value} {e : GenerationError}
    (he : (pool.intern value).1 = .error e) : (pool.intern value).2 = pool := by
  have hcases := pool.interned value
  generalize pool.intern value = result at hcases he
  cases hcases with
  | found | added => cases he
  | full => rfl

/-- A constant is pooled if there is room for its name. -/
theorem Sound.exists_intern (h : pool.Sound) {value : Value} (hroom : pool.Room {value.poolName}) :
    ∃ n pool', pool.intern value = (.ok n, pool') := by
  rcases hintern : pool.intern value with ⟨e | n, pool'⟩
  · obtain ⟨hfull, hnew⟩ := (h.intern_eq_error_iff value).mp ⟨e, by rw [hintern]⟩
    -- A new name is one more than the entries.
    rw [Room, Finset.union_comm, ← Finset.insert_eq, Finset.card_insert_of_notMem hnew,
      h.card_names, hfull] at hroom
    omega
  · exact ⟨n, pool', rfl⟩

theorem constant_eq_ok {value : Value} {n : Int16} :
    Emit.constant value pool = .ok n pool' ↔ pool.intern value = (.ok n, pool') := by
  unfold Emit.constant
  obtain ⟨_ | m, pool₁⟩ := pool.intern value <;> simp

/-! ## Calls one after the other -/

/-- The pool after calls for these values. -/
def internAll (pool : ConstantPool) (values : List Value) : ConstantPool :=
  values.foldl (fun pool value => (pool.intern value).2) pool

theorem Sound.grows_intern (h : pool.Sound) (value : Value) : pool.Grows (pool.intern value).2 := by
  have hcases := pool.interned value
  generalize pool.intern value = result at hcases ⊢
  cases hcases with
  | found | full => exact .refl h
  | added hnew hn => exact h.push hnew hn

theorem Sound.grows_internAll (h : pool.Sound) (values : List Value) :
    pool.Grows (pool.internAll values) := by
  induction values generalizing pool with
  | nil => exact .refl h
  | cons value rest ih =>
    have hfirst := h.grows_intern value
    exact hfirst.trans (ih hfirst.sound)

/-- Two constants have one number if their names agree, and only then. -/
theorem Sound.number_eq_iff (h : pool.Sound) {v w : Value} {n m : Int16} {k : Nat} {c : Constant}
    (hk : n.toInt = k) (hc : pool.entries[k]? = some c) (hname : c.name = v.poolName)
    (hm : (pool.intern w).1 = .ok m) : m = n ↔ v.poolName = w.poolName := by
  have hintern : pool.intern w = (.ok m, (pool.intern w).2) := Prod.ext hm rfl
  obtain ⟨htakes, l, d, hl, hd, hname'⟩ := h.takes hintern
  have hc' := getElem?_of_kept htakes.grows.kept hc
  constructor
  · rintro rfl
    obtain rfl : k = l := by omega
    cases hc'.symm.trans hd
    rw [← hname, ← hname']
  · intro heq
    obtain ⟨n', hn', hintern'⟩ := h.intern_of_name hc (hname.trans heq)
    cases hm.symm.trans (congrArg Prod.fst hintern')
    exact Int16.toInt_inj.mp (hn'.trans hk.symm)

end ConstantPool

open ConstantPool in
/-- The pool is injective and stable. Whatever was asked of a pool before and is asked of it later,
the entries stay and their names differ. The number that a constant gets leads to an entry with the
value of the constant, or both are not a number. Later calls for it get the same number, and no call
for another value does. A call fails exactly when the pool is full and the constant is not in it,
and changes nothing. -/
theorem pool_injective_and_stable (before later : List Value) (v : Value) :
    let pool := ({} : ConstantPool).internAll before
    let pool₁ := (pool.intern v).2
    let pool₂ := pool₁.internAll later
    (pool.entries.toList <+: pool₁.entries.toList ∧ pool₁.entries.toList <+: pool₂.entries.toList) ∧
    (pool₂.entries.toList.map (·.name)).Nodup ∧
    (∀ n, (pool.intern v).1 = .ok n →
      (∃ (k : Nat) (c : Constant), n.toInt = k ∧ pool₁.entries[k]? = some c ∧
        (c.value = v ∨ c.value.IsNaN ∧ v.IsNaN)) ∧
      (pool₂.intern v).1 = .ok n ∧
      ∀ w m, (pool₂.intern w).1 = .ok m → (m = n ↔ v = w ∨ v.IsNaN ∧ w.IsNaN)) ∧
    ((∃ e, (pool.intern v).1 = .error e) ↔ pool.entries.size = 32768 ∧
      ∀ c ∈ pool.entries, ¬(c.value = v ∨ c.value.IsNaN ∧ v.IsNaN)) ∧
    ∀ e, (pool.intern v).1 = .error e → pool₁ = pool := by
  intro pool pool₁ pool₂
  have hsound : pool.Sound := (sound_empty.grows_internAll before).sound
  have hgrows : pool.Grows pool₁ := hsound.grows_intern v
  have hgrows' : pool₁.Grows pool₂ := hgrows.sound.grows_internAll later
  refine ⟨⟨hgrows.kept, hgrows'.kept⟩, hgrows'.sound.nodup, fun n hn => ?_, ?_, fun e he => ?_⟩
  · obtain ⟨-, k, c, hk, hc, hname⟩ :=
      hsound.takes (Prod.ext hn rfl : pool.intern v = (.ok n, pool₁))
    have hc' := getElem?_of_kept hgrows'.kept hc
    refine ⟨⟨k, c, hk, hc, ?_⟩, ?_, fun w m hm => ?_⟩
    · rw [← Value.poolName_eq_iff, ← hname]
      exact (hgrows.sound.named c (Array.mem_toList_iff.mpr (Array.mem_of_getElem? hc))).symm
    · obtain ⟨n', hn', hintern⟩ := hgrows'.sound.intern_of_name hc' hname
      rw [hintern, Int16.toInt_inj.mp (hn'.trans hk.symm)]
    · rw [← Value.poolName_eq_iff]
      exact hgrows'.sound.number_eq_iff hk hc' hname hm
  · rw [hsound.intern_eq_error_iff, names, List.mem_toFinset, List.mem_map]
    simp only [Array.mem_toList_iff, not_exists, not_and, ← Value.poolName_eq_iff]
    refine and_congr_right fun _ => forall₂_congr fun c hc => ?_
    rw [hsound.named c (Array.mem_toList_iff.mpr hc)]
  · exact intern_snd_of_error he

end Codewright.Bytecode
