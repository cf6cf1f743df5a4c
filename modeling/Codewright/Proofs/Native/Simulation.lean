import Codewright.Proofs.Native.Machine
import Codewright.Proofs.SharedPlaces

/-!
# Code does what the tree says

The processor and the tree go side by side. At each point of the evaluation the live locals have
their values at their places (`Holds`); the code of an expression leads to a state where that is so
again and where its value is at the location that the emission has told; and the code of a statement
goes on behind it, or leaves the function with the value in the register of the result.

Two registers of each class belong to no local. What is computed in them disturbs no place.
-/

namespace Codewright.Native

open Evaluation

/-! ## Homes -/

/-- The registers in which the processor computes. -/
def scratch : List Register := [.r10, .r11, .xmm4, .xmm5]

/-- A location where a local may live. -/
structure IsHome (size : Nat) (l : Location) : Prop where
  within : Within size l
  free : ∀ r ∈ scratch, l ≠ .register r

/-- A state comes from another by a change of at most one home, and of what is no home. -/
structure Changes (size : Nat) (dst : Option Location) (s s' : State) :
    Prop extends Stays size s s' where
  homes : ∀ l, IsHome size l → dst ≠ some l → s'.word l = s.word l

section

variable {size : Nat} {s s₁ s' : State} {dst src : Location} {store : Option Location} {R : Reals}

theorem Changes.refl (size : Nat) (dst : Option Location) (s : State) : Changes size dst s s :=
  ⟨.refl size s, fun _ _ _ => rfl⟩

theorem Changes.after (h : Changes size none s s₁) (h' : Changes size store s₁ s') :
    Changes size store s s' where
  toStays := h.toStays.trans h'.toStays
  homes := fun l hl hne => (h'.homes l hl hne).trans (h.homes l hl (by simp))

theorem Changes.put (hsize : size ≤ 0x80) (h : Within size dst) (w : UInt64) :
    Changes size (some dst) s (s.put dst w) where
  toStays := .put hsize h w
  homes :=
    fun _ hl hne => word_put_of_ne hsize h hl.within (fun heq => hne (congrArg some heq.symm)) s w

theorem ne_rsp_of_scratch {r : Register} (h : r ∈ scratch) : r ≠ .rsp := by
  rintro rfl
  exact absurd h (by decide)

theorem Changes.scratch (hsize : size ≤ 0x80) {r : Register} (h : r ∈ scratch) (w : UInt64) :
    Changes size none s (s.set r w) where
  toStays := Stays.put (l := .register r) hsize (.register (ne_rsp_of_scratch h)) w
  homes := fun _ hl _ => word_put_of_ne (l := .register r) hsize (.register (ne_rsp_of_scratch h))
    hl.within (hl.free r h) s w

/-! ## Moves -/

theorem leads_move_register (r : Register) (src : Location) :
    Leads R (moveCode (.register r) src) s (s.set r (s.word src)) := by
  unfold moveCode
  by_cases heq : Location.register r = src
  · rw [if_pos heq, ← heq]
    have hsame : s.set r (s.word (.register r)) = s := by
      show { s with registers := Function.update s.registers r (s.registers r) } = s
      rw [Function.update_eq_self]
    rw [hsame]
    exact .nil s
  · rw [if_neg heq]
    cases src with
    | register r' =>
      dsimp only
      cases r.isVector <;> cases r'.isVector <;> exact .instruction (by simp) rfl
    | stack d =>
      dsimp only
      cases r.isVector <;> exact .instruction (by simp) rfl

theorem leads_move (hsize : size ≤ 0x80) (hdst : Within size dst) (src : Location) :
    ∃ s', Leads R (moveCode dst src) s s' ∧ Changes size (some dst) s s' ∧
        s'.word dst = s.word src := by
  cases dst with
  | register r =>
    exact ⟨_, leads_move_register r src, .put hsize hdst _, word_put_self s (.register r) _⟩
  | stack d =>
    unfold moveCode
    by_cases heq : Location.stack d = src
    · rw [if_pos heq]
      exact ⟨s, .nil s, .refl size _ s, by rw [heq]⟩
    rw [if_neg heq]
    cases src with
    | register r =>
      refine ⟨s.put (.stack d) (s.registers r), ?_, .put hsize hdst _, word_put_self s (.stack d) _⟩
      dsimp only
      cases r.isVector <;> exact .instruction (by simp) rfl
    | stack d' =>
      -- from memory to memory through a register
      have hscratch : Changes size none s (s.set .r11 (s.word (.stack d'))) :=
        .scratch hsize (by decide) _
      refine ⟨(s.set .r11 (s.word (.stack d'))).put (.stack d) (s.word (.stack d')), ?_,
        hscratch.after (.put hsize hdst _), word_put_self _ (.stack d) _⟩
      have hload : Leads R [.load .r11 d'] s (s.set .r11 (s.word (.stack d'))) :=
        .instruction (by simp) rfl
      exact hload.append (.instruction (by simp) rfl)

theorem leads_constant (hsize : size ≤ 0x80) (hdst : Within size dst) (v : Value) :
    ∃ s', Leads R (constantCode dst v) s s' ∧ Changes size (some dst) s s' ∧
        s'.word dst = v.toBits := by
  have himmediate : ∀ r, Leads R [.loadImmediate r v.toBits.toInt64] s (s.set r v.toBits) :=
    fun _ => .instruction (by simp) rfl
  have hscratch : Changes size none s (s.set .r11 v.toBits) := .scratch hsize (by decide) _
  have hthrough : ∀ i : Instruction, i ≠ .ret →
      (s.set .r11 v.toBits).execute R i = (s.set .r11 v.toBits).put dst v.toBits →
      ∃ s', Leads R [.loadImmediate .r11 v.toBits.toInt64, i] s s' ∧ Changes size (some dst) s s' ∧
        s'.word dst = v.toBits := by
    intro i hi hput
    refine ⟨(s.set .r11 v.toBits).put dst v.toBits, ?_, hscratch.after (.put hsize hdst _),
      word_put_self _ dst _⟩
    exact (himmediate .r11).append (.instruction hi hput)
  unfold constantCode
  cases dst with
  | register r =>
    dsimp only
    cases r.isVector with
    | true => exact hthrough (.toVector r .r11) (by simp) rfl
    | false =>
      exact ⟨s.put (.register r) v.toBits, himmediate r, .put hsize hdst _,
        word_put_self s (.register r) _⟩
  | stack d => exact hthrough (.store d .r11) (by simp) rfl

theorem leads_settle (hsize : size ≤ 0x80) (hstore : ∀ dst, store = some dst → Within size dst)
    (computed : Location) : ∃ s', Leads R (settleCode store computed) s s' ∧
      Changes size store s s' ∧ s'.word (store.getD computed) = s.word computed := by
  cases store with
  | none => exact ⟨s, .nil s, .refl size _ s, rfl⟩
  | some dst => exact leads_move hsize (hstore dst rfl) computed

/-! ## Operators -/

/-- Two words into registers of the computation, and an instruction that puts its result over the
first. -/
theorem leads_operands (hsize : size ≤ 0x80) {r r' : Register} (hr : r ∈ scratch)
    (hr' : r' ∈ scratch) (hne : r ≠ r') {lhs rhs : Location} (hrhs : IsHome size rhs)
    {i : Instruction} (hi : i ≠ .ret)
    {w : UInt64} (hw : ∀ s' : State, s'.registers r = s.word lhs → s'.registers r' = s.word rhs →
      s'.execute R i = s'.set r w) :
    ∃ s', Leads R (moveCode (.register r) lhs ++ moveCode (.register r') rhs ++ [i]) s s' ∧
      Changes size none s s' ∧ s'.word (.register r) = w := by
  have hfirst : Changes size none s (s.set r (s.word lhs)) := .scratch hsize hr _
  have hright : (s.set r (s.word lhs)).word rhs = s.word rhs := hfirst.homes rhs hrhs (by simp)
  set s₂ := (s.set r (s.word lhs)).set r' (s.word rhs) with hs₂
  have hmoves : Leads R (moveCode (.register r) lhs ++ moveCode (.register r') rhs) s s₂ := by
    have hsecond := leads_move_register (R := R) (s := s.set r (s.word lhs)) r' rhs
    rw [hright] at hsecond
    exact (leads_move_register r lhs).append hsecond
  have hlast : s₂.execute R i = s₂.set r w := by
    refine hw s₂ ?_ (State.registers_set_self ..)
    rw [hs₂, State.registers_set_of_ne _ hne, State.registers_set_self]
  refine ⟨s₂.set r w, ?_, ?_, s₂.registers_set_self r w⟩
  · exact hmoves.append (.instruction hi hlast)
  · exact hfirst.after ((Changes.scratch hsize hr' _).after (.scratch hsize hr _))

theorem intOp_apply {op : Intrinsic} {o : IntOp} {f : Int64 → Int64 → Int64}
    (ho : Emit.intOp? op = some o) (hf : op.wrapping? = some f) (i j : Int64) :
    o.apply i.toUInt64 j.toUInt64 = (f i j).toUInt64 := by
  cases op <;> cases ho <;> cases hf <;> rfl

theorem realOp_apply {op : Intrinsic} {o : RealOp} {f : Double → Double → Double}
    (ho : Emit.realOp? op = some o) (hf : R.real? op = some f) : o.apply R = f := by
  cases op <;> cases ho <;> cases hf <;> rfl

theorem leads_operated (hsize : size ≤ 0x80) {op : Intrinsic} {lhs rhs computed : Location}
    {ty left right : Ty} {code : List Instruction}
    (ho : Operated op lhs rhs ty left right code computed)
    (hrhs : IsHome size rhs) {a b v : Value} (ha : s.word lhs = a.toBits)
    (hb : s.word rhs = b.toBits) (hleft : left.Suits a) (hright : right.Suits b) (hty : ty.Suits v)
    (hv : R.binary? op a b = some v) :
    ∃ s', Leads R code s s' ∧ Changes size none s s' ∧ s'.word computed = v.toBits := by
  cases ho with
  | @real o ho =>
    obtain ⟨x, rfl⟩ := Value.real_of_ty (hleft rfl)
    obtain ⟨y, rfl⟩ := Value.real_of_ty (hright rfl)
    rw [Reals.binary?_of_real (.inl rfl)] at hv
    obtain ⟨f, x', y', hf, hx', hy', rfl⟩ := Reals.promoted?_eq_some hv
    cases hx'
    cases hy'
    refine leads_operands hsize (by decide) (by decide) (by decide) hrhs (by simp) fun s' hr hr' =>
      ?_
    show s'.set .xmm4 (o.apply R ⟨s'.registers .xmm4⟩ ⟨s'.registers .xmm5⟩).bits = _
    rw [hr, hr', ha, hb, realOp_apply ho hf]
    rfl
  | @int o _ _ ho =>
    obtain ⟨i, j, f, rfl, rfl, hf, rfl⟩ := Reals.binary?_int hv (hty rfl)
    refine leads_operands hsize (by decide) (by decide) (by decide) hrhs (by simp) fun s' hr hr' =>
      ?_
    show s'.set .r11 (o.apply (s'.registers .r11) (s'.registers .r10)) = _
    rw [hr, hr', ha, hb]
    exact congrArg (s'.set .r11) (intOp_apply ho hf i j)

theorem leads_convert (hsize : size ≤ 0x80) {i : Int64} (hsrc : s.word src = i.toUInt64) :
    ∃ s', Leads R (moveCode (.register .r11) src ++ [.convert .xmm4 .r11]) s s' ∧
      Changes size none s s' ∧ s'.word (.register .xmm4) = (R.ofInt i).bits := by
  have hfirst : Changes size none s (s.set .r11 (s.word src)) := .scratch hsize (by decide) _
  refine ⟨(s.set .r11 (s.word src)).set .xmm4 (R.ofInt i).bits, ?_,
    hfirst.after (.scratch hsize (by decide) _), word_put_self _ (.register .xmm4) _⟩
  have hconvert : (s.set .r11 (s.word src)).execute R (.convert .xmm4 .r11) =
      (s.set .r11 (s.word src)).set .xmm4 (R.ofInt i).bits := by
    show (s.set .r11 (s.word src)).set .xmm4 (R.ofInt (s.word src).toInt64).bits = _
    rw [hsrc]
    rfl
  exact (leads_move_register .r11 src).append (.instruction (by simp) hconvert)

end

/-! ## Locals at their places -/

def State.cell (s : State) : Storage → UInt64
  | .unassigned => 0
  | .register r => s.word (.register r)
  | .stack k => s.word (.stack (Int8.ofNat (k * slotSize)))

/-- A frame is small, and every place of a local is a home. -/
structure Housed (frame : Frame) : Prop where
  size_le : frame.size ≤ 0x80
  homes : ∀ x, storageOf frame.locals x ≠ .unassigned →
    ∃ l, Located (storageOf frame.locals x) (some l) ∧ IsHome frame.size l

/-- Some locals have their values at their places. -/
def Holds (frame : Frame) (L : Set LocalId) (m : LocalId → Value) (s : State) : Prop :=
  ∀ x ∈ L, s.cell (storageOf frame.locals x) = (m x).toBits

section

variable {frame : Frame} {s s' : State} {l l' : Location} {store : Option Location}
  {place place' : Storage}

theorem Located.cell_eq (h : Located place (some l)) (s : State) : s.cell place = s.word l := by
  cases h <;> rfl

theorem Located.location_eq {l₁ l₂ : Option Location} (h : Located place l₁)
    (h' : Located place l₂) : l₁ = l₂ := by
  cases h <;> cases h' <;> rfl

theorem Located.place_eq (h : Located place (some l)) (h' : Located place' (some l)) :
    place = place' := by
  cases h with
  | register r =>
    cases h'
    rfl
  | @stack j hj =>
    generalize hl : Location.stack (Int8.ofNat (j * slotSize)) = l at h'
    cases h' with
    | register r => cases hl
    | @stack k hk =>
      have hinj : ∀ j k : Fin 16, Int8.ofNat (j.val * slotSize) = Int8.ofNat (k.val * slotSize) →
          j = k := by
        decide
      rw [slotSize] at hj hk
      have heq := hinj ⟨j, by omega⟩ ⟨k, by omega⟩ (Location.stack.inj hl)
      exact congrArg Storage.stack (congrArg Fin.val heq)

theorem Housed.home (h : Housed frame) {x : LocalId}
    (hl : Located (storageOf frame.locals x) (some l)) : IsHome frame.size l := by
  have hne : storageOf frame.locals x ≠ .unassigned := by
    intro hx
    rw [hx] at hl
    cases hl
  obtain ⟨l', hl', hhome⟩ := h.homes x hne
  cases hl.location_eq hl'
  exact hhome

theorem Housed.cell_kept (h : Housed frame) {x : LocalId}
    (hx : storageOf frame.locals x ≠ .unassigned)
    (hne : ∀ l, store = some l → ¬ Located (storageOf frame.locals x) (some l))
    (hc : Changes frame.size store s s') :
    s'.cell (storageOf frame.locals x) = s.cell (storageOf frame.locals x) := by
  obtain ⟨l, hl, hhome⟩ := h.homes x hx
  rw [hl.cell_eq, hl.cell_eq]
  exact hc.homes l hhome fun heq => hne l heq hl

end

section

variable {frame : Frame} {decl : LocalId → Option (Ty × Bool)} {iv : LocalId → Option Interval}
  {Γ : Set LocalId} {p e : Nat} {m : LocalId → Value} {s s' : State} {v : Value}
  {l : Option Location}

variable (hF : Housed frame) (hlay : Layout decl iv (storageOf frame.locals))

include hlay

/-- A local that is live behind a point has a place. -/
theorem place_of_live (hst : Standing iv Γ ∅ p e) {xs : List LocalId} (ht : Tree.Touched iv p xs)
    {x : LocalId} (hx : x ∈ live iv (withLocals Γ xs) ∅ (p + 1)) :
    storageOf frame.locals x ≠ .unassigned := by
  obtain ⟨i, hi, hfirst⟩ : ∃ i, iv x = some i ∧ i.first ≤ p := by
    rcases hx.1 with hx | hx
    · obtain ⟨i, hi, hlt⟩ := hst.begun x hx
      exact ⟨i, hi, hlt.le⟩
    · obtain ⟨i, hi, hle, -⟩ := ht x hx
      exact ⟨i, hi, hle⟩
  obtain ⟨j, hj, hlast⟩ := hx.2.resolve_left (Set.notMem_empty x)
  cases hi.symm.trans hj
  refine (hlay.placed x i hi).mpr (.inl ?_)
  push_cast at hlast
  omega

include hF

/-- A value that goes to the place of a local destroys no other local that is live after it. -/
theorem Holds.store (h : Holds frame (live iv Γ ∅ p) m s) (hst : Standing iv Γ ∅ p e) (hpe : p < e)
    {z : LocalId} (ht : Tree.Touched iv p [z]) (hl : Located (storageOf frame.locals z) l)
    (hc : Changes frame.size l s s') (hw : ∀ dst, l = some dst → s'.word dst = v.toBits) :
    Holds frame (live iv (withLocals Γ [z]) ∅ (p + 1)) (Function.update m z v) s' := by
  obtain ⟨k, hk, hfirst, hlast⟩ := ht z (by simp)
  -- the same store on words instead of values
  have hwords : Agree (E := Empty) (storageOf frame.locals) (live iv Γ ∅ p)
      { memory := fun x => (m x).toBits } { memory := s.cell } := ⟨⟨rfl, rfl⟩, h⟩
  have hagree := hwords.store hlay hst hpe hk hfirst hlast v.toBits
  intro y hy
  have hplace := place_of_live hlay hst ht hy
  have hword : s'.cell (storageOf frame.locals y) =
      (placed (storageOf frame.locals)).write s.cell z v.toBits (storageOf frame.locals y) := by
    unfold placed
    dsimp only
    by_cases hnone : storageOf frame.locals z = .unassigned
    · rw [if_pos hnone]
      rw [hnone] at hl
      cases hl
      exact hF.cell_kept hplace (by simp) hc
    rw [if_neg hnone]
    by_cases hsame : storageOf frame.locals y = storageOf frame.locals z
    · obtain ⟨dst, hdst, -⟩ := hF.homes z hnone
      rw [hsame, Function.update_self, hdst.cell_eq, hw dst (hl.location_eq hdst)]
    · rw [Function.update_of_ne hsame]
      refine hF.cell_kept hplace (fun dst hdst hy => hsame ?_) hc
      rw [hdst] at hl
      exact hy.place_eq hl
  have hvalue : separate.write (fun x => (m x).toBits) z v.toBits y =
      (Function.update m z v y).toBits := by
    show Function.update (fun x => (m x).toBits) z v.toBits y = _
    by_cases hyz : y = z
    · rw [hyz, Function.update_self, Function.update_self]
    · rw [Function.update_of_ne hyz, Function.update_of_ne hyz]
  rw [hword, ← hvalue]
  exact hagree.memory y hy

/-- The same for the store of a node, if it has one. -/
theorem Holds.settle (h : Holds frame (live iv Γ ∅ p) m s) (hst : Standing iv Γ ∅ p e)
    (hpe : p < e) {store : Option LocalId} (ht : Tree.Touched iv p store.toList)
    (hl : StoredAt frame store l) (hc : Changes frame.size l s s')
    (hw : ∀ dst, l = some dst → s'.word dst = v.toBits) :
    Holds frame (live iv (withLocals Γ store.toList) ∅ (p + 1)) (stored m store v) s' := by
  cases hl with
  | @placed z _ hl => exact h.store hF hlay hst hpe ht hl hc hw
  | nothing =>
    intro x hx
    rw [hF.cell_kept (place_of_live hlay hst ht hx) (by simp) hc]
    rw [Option.toList_none, withLocals_nil] at hx
    exact h x (live_mono (le_refl _) (Nat.le_succ p) hx)

end

/-! ## Expressions -/

/-- Code leads to a state where a value is at a location and the live locals are at their places. -/
structure Reaches (R : Reals) (frame : Frame) (L : Set LocalId) (code : List Instruction)
    (l : Option Location) (v : Value) (m : LocalId → Value) (s s' : State) : Prop where
  leads : Leads R code s s'
  stays : Stays frame.size s s'
  holds : Holds frame L m s'
  word : ∀ dst, l = some dst → s'.word dst = v.toBits

section

variable {R : Reals} {frame : Frame} {decl : LocalId → Option (Ty × Bool)}
  {iv : LocalId → Option Interval}
  {Γ U : Set LocalId} {p e : Nat} {t : Tree} {m m' : LocalId → Value} {s s₁ : State} {v : Value}
  {l : Option Location} {code : List Instruction} {again : Bool}

theorem StoredAt.within (hF : Housed frame) {store : Option LocalId} (h : StoredAt frame store l) :
    ∀ dst, l = some dst → Within frame.size dst := by
  rintro dst rfl
  cases h with
  | placed h => exact (hF.home h).within

/-- A value that has been computed outside the homes goes to the place of a store. -/
theorem reaches_settle (hF : Housed frame) (hlay : Layout decl iv (storageOf frame.locals))
    (h : Holds frame (live iv Γ ∅ p) m s) (hst : Standing iv Γ ∅ p e) (hpe : p < e)
    {store : Option LocalId} (ht : Tree.Touched iv p store.toList) (hl : StoredAt frame store l)
    (hcode : Leads R code s s₁) (hc : Changes frame.size none s s₁) {computed : Location}
    (hword : s₁.word computed = v.toBits) :
    ∃ s', Reaches R frame (live iv (withLocals Γ store.toList) ∅ (p + 1))
      (code ++ settleCode l computed) (some (l.getD computed)) v (stored m store v) s s' := by
  obtain ⟨s', hleads, hchanges, hsettled⟩ :=
    leads_settle (R := R) (s := s₁) hF.size_le (hl.within hF) computed
  have hall := hc.after hchanges
  have hvalue : s'.word (l.getD computed) = v.toBits := hsettled.trans hword
  refine ⟨s', hcode.append hleads, hall.toStays, ?_, ?_⟩
  · refine h.settle hF hlay hst hpe ht hl hall fun dst hdst => ?_
    rw [hdst] at hvalue
    exact hvalue
  · rintro dst hdst
    cases hdst
    exact hvalue

/-- An operand that has been computed is at the place of its store when the operator reads it. -/
theorem word_operand (h : Holds frame (live iv Γ ∅ p) m s) {x : LocalId} (hx : x ∈ Γ)
    (ht : Tree.Touched iv p [x]) (hm : m x = v) {dst : Location}
    (hl : Located (storageOf frame.locals x) (some dst)) : s.word dst = v.toBits := by
  obtain ⟨i, hi, -, hlast⟩ := ht x (by simp)
  rw [← hl.cell_eq, h x ⟨hx, .inr ⟨i, hi, hlast⟩⟩, hm]

theorem StoredAt.located {store : Option LocalId} {dst : Location}
    (h : StoredAt frame store (some dst)) :
    ∃ x, store = some x ∧ Located (storageOf frame.locals x) (some dst) := by
  cases h with
  | @placed x _ h => exact ⟨x, rfl, h⟩

theorem Reaches.after {L : Set LocalId} {code' : List Instruction} {s' : State}
    (h : Reaches R frame L code l v m s₁ s') (hleads : Leads R code' s s₁)
    (hstays : Stays frame.size s s₁) : Reaches R frame L (code' ++ code) l v m s s' :=
  ⟨hleads.append h.leads, hstays.trans h.stays, h.holds, h.word⟩

theorem eq_of_unstoredConstant? {c : Value} (h : Evaluates R t m v m')
    (hc : Emit.unstoredConstant? t = some c) : v = c := by
  cases h <;> simp_all [Emit.unstoredConstant?, Tree.constant?]

theorem reaches_expr (hF : Housed frame) (hlay : Layout decl iv (storageOf frame.locals))
    (he : Evaluates R t m v m') (hcode : Computed frame t code l) (hs : t.ScopedExpr again Γ U)
    (hc : t.Charted iv p) (hst : Standing iv Γ ∅ p e) (hpe : p + t.points ≤ e)
    (h : Holds frame (live iv Γ ∅ p) m s) :
    ∃ s', Reaches R frame (live iv (withLocals Γ t.defines) ∅ (p + t.points)) code l v m' s s' := by
  induction he generalizing again Γ U p s code l with
  | @const tag value m hty =>
    have hlt : p < e := Nat.lt_of_succ_le hpe
    cases hcode with
    | @const _ _ dst hat =>
      obtain ⟨s', hleads, hchanges, hword⟩ := leads_constant (R := R) (s := s) hF.size_le
        (hat.within hF dst rfl) value
      have hvalue : ∀ dst', some dst = some dst' → s'.word dst' = value.toBits := by
        rintro dst' hdst'
        cases hdst'
        exact hword
      exact ⟨s', hleads, hchanges.toStays, h.settle hF hlay hst hlt hc hat hchanges hvalue, hvalue⟩
    | dropped hat =>
      have hvalue : ∀ dst, none = some dst → s.word dst = value.toBits := by simp
      exact ⟨s, .nil s, .refl _ s, h.settle hF hlay hst hlt hc hat (.refl _ _ s) hvalue, hvalue⟩
  | @load tag x m hty =>
    cases hcode with
    | @load _ _ store source hat hx =>
      have hword : s.word source = (m x).toBits :=
        word_operand h hs.1 (hc.mono (by simp)) rfl hx
      exact reaches_settle hF hlay h hst (Nat.lt_of_succ_le hpe)
        (hc.mono (List.subset_cons_self _ _)) hat (.nil s) (.refl _ _ s) hword
  | @binary tag op left right m m₁ m₂ a b v hl hr hv hty ihl ihr =>
    cases hcode with
    | @binary _ _ _ _ store _ _ lhs rhs computed codeₗ codeᵣ codeₒ hat hcl hlhs hcr hrhs ho =>
      obtain ⟨hsl, hsr, -⟩ := hs
      obtain ⟨hchl, hchr, ht⟩ := hc
      simp only [Tree.points] at hpe
      obtain ⟨s₁, hleft⟩ := ihl hcl hsl hchl hst (by omega) h
      obtain ⟨s₂, hright⟩ := ihr hcr hsr hchr (hst.after hchl) (by omega) hleft.holds
      have hpoints : p + Tree.pointsAll [left, right] = p + left.points + right.points := by
        simp only [Tree.pointsAll, Nat.add_zero, Nat.add_assoc]
      rw [hpoints] at ht
      obtain ⟨x, hx, hlhs⟩ := hlhs.located
      obtain ⟨y, hy, hrhs⟩ := hrhs.located
      -- the local of the left operand is met before the right one, which does not store it
      have hmx : m₂ x = a := by
        have hmet : x ∈ withLocals U left.mentions :=
          .inr (Tree.mem_mentions.mpr (.inr (Tree.mem_stores_of_store hx)))
        rw [hr.unchanged (hsr.not_stored hmet)]
        exact (hl.stored hx).1
      have hlword : s₂.word lhs = a.toBits :=
        word_operand hright.holds (.inl (.inr (hl.stored hx).2)) (ht.mono (by simp [hx])) hmx hlhs
      have hrword : s₂.word rhs = b.toBits :=
        word_operand hright.holds (.inr (hr.stored hy).2) (ht.mono (by simp [hy]))
          (hr.stored hy).1 hrhs
      obtain ⟨s₃, hleads, hchanges, hword⟩ := leads_operated hF.size_le ho (hF.home hrhs) hlword
        hrword hl.suits hr.suits hty hv
      obtain ⟨s', hsettled⟩ := reaches_settle hF hlay hright.holds
        ((hst.after hchl).after hchr) (by omega)
        (ht.mono (List.subset_append_right _ _)) hat hleads hchanges hword
      have hall := (hsettled.after hright.leads hright.stays).after hleft.leads hleft.stays
      refine ⟨s', ?_⟩
      simpa only [Tree.points, Tree.defines, withLocals_append, Nat.add_assoc] using hall
  | @toReal tag operand m m₁ i ho hty ih =>
    cases hcode with
    | @toReal _ _ store _ source codeₒ hat hco hsource =>
      obtain ⟨hso, -⟩ := hs
      obtain ⟨hcho, ht⟩ := hc
      simp only [Tree.points] at hpe
      obtain ⟨s₁, hoperand⟩ := ih hco hso hcho hst (by omega) h
      have hpoints : p + Tree.pointsAll [operand] = p + operand.points := by
        simp only [Tree.pointsAll, Nat.add_zero]
      rw [hpoints] at ht
      obtain ⟨x, hx, hsource⟩ := hsource.located
      have howord : s₁.word source = i.toUInt64 :=
        word_operand hoperand.holds (.inr (ho.stored hx).2) (ht.mono (by simp [hx]))
          (ho.stored hx).1 hsource
      obtain ⟨s₂, hleads, hchanges, hword⟩ := leads_convert (R := R) hF.size_le howord
      obtain ⟨s', hsettled⟩ := reaches_settle (v := .real (R.ofInt i)) hF hlay hoperand.holds
        (hst.after hcho) (by omega) (ht.mono (List.subset_append_right _ _)) hat hleads hchanges
        hword
      have hall := hsettled.after hoperand.leads hoperand.stays
      refine ⟨s', ?_⟩
      simpa only [Tree.points, Tree.defines, withLocals_append, Nat.add_assoc, List.append_assoc,
        List.singleton_append] using hall

end

/-! ## Statements -/

/-- A function with a frame has been left: the stack pointer is above the frame, what has been
written lies in the frame, and the value that is returned is where results are. -/
structure Returned (size : Nat) (result : Ty) (v : Option Value) (s s' : State) : Prop where
  rsp : s'.registers .rsp = s.registers .rsp + size.toUInt64
  written : ∀ a ∈ s'.written, a ∈ s.written ∨ (a - s.registers .rsp).toNat < size
  value : ∀ w, v = some w → s'.word (Emit.resultLocation result) = w.toBits

/-- Code goes the way of a statement with an ending. -/
def Arrives (R : Reals) (frame : Frame) (result : Ty) (L : Set LocalId) (code : List Instruction)
    (s : State) : Ending → Prop
  | .falls m => ∃ s', Leads R code s s' ∧ Stays frame.size s s' ∧ Holds frame L m s'
  | .returns v => ∃ s', (∀ rest, finish R (code ++ rest) s = some s') ∧
    Returned frame.size result v s s'

section

variable {R : Reals} {size : Nat} {s s₁ : State} {result : Ty} {v : Option Value}

theorem Returned.after {s' : State} (h : Returned size result v s₁ s') (hs : Stays size s s₁) :
    Returned size result v s s' where
  rsp := by rw [h.rsp, hs.rsp]
  written := by
    intro a ha
    rcases h.written a ha with ha | ha
    · exact hs.written a ha
    · rw [hs.rsp] at ha
      exact .inr ha
  value := h.value

theorem toUInt64_toUInt32 (h : size ≤ 0x80) : size.toUInt32.toUInt64 = size.toUInt64 := by
  apply UInt64.toNat.inj
  simp only [UInt32.toNat_toUInt64, Nat.toUInt32_eq, Nat.toUInt64_eq, UInt32.toNat_ofNat',
    UInt64.toNat_ofNat']
  omega

theorem finish_epilogue (hsize : size ≤ 0x80) (s : State) :
    ∃ s', (∀ rest, finish R (epilogueCode size ++ rest) s = some s') ∧
      s'.registers .rsp = s.registers .rsp + size.toUInt64 ∧ s'.written = s.written ∧
      ∀ r, r ≠ .rsp → s'.registers r = s.registers r := by
  by_cases hpos : size > 0
  · refine ⟨s.set .rsp (s.registers .rsp + size.toUInt64), fun rest => ?_,
      s.registers_set_self _ _, rfl, fun r hr => s.registers_set_of_ne hr _⟩
    rw [epilogueCode, if_pos hpos, ← toUInt64_toUInt32 hsize]
    rfl
  · refine ⟨s, fun rest => ?_, ?_, rfl, fun _ _ => rfl⟩
    · rw [epilogueCode, if_neg hpos]
      rfl
    · rw [Nat.eq_zero_of_not_pos hpos]
      exact (UInt64.add_zero _).symm

theorem resultLocation_eq (ty : Ty) : ∃ r, Emit.resultLocation ty = .register r ∧ r ≠ .rsp := by
  unfold Emit.resultLocation
  cases usesVector ty with
  | true => exact ⟨.xmm0, rfl, by decide⟩
  | false => exact ⟨.rax, rfl, by decide⟩

theorem within_resultLocation (ty : Ty) : Within size (Emit.resultLocation ty) := by
  obtain ⟨r, hr, hne⟩ := resultLocation_eq ty
  rw [hr]
  exact .register hne

/-- The code that leaves a function, once the value is where results are. -/
theorem arrives_epilogue (hsize : size ≤ 0x80) {code : List Instruction} (hcode : Leads R code s s₁)
    (hstays : Stays size s s₁)
    (hv : ∀ w, v = some w → s₁.word (Emit.resultLocation result) = w.toBits) :
    ∃ s', (∀ rest, finish R (code ++ epilogueCode size ++ rest) s = some s') ∧
      Returned size result v s s' := by
  obtain ⟨s', hfinish, hrsp, hwritten, hrest⟩ := finish_epilogue (R := R) hsize s₁
  refine ⟨s', fun rest => ?_, ?_, ?_, fun w hw => ?_⟩
  · rw [List.append_assoc, hcode, hfinish]
  · rw [hrsp, hstays.rsp]
  · rw [hwritten]
    exact hstays.written
  · obtain ⟨r, hr, hne⟩ := resultLocation_eq result
    rw [← hv w hw, hr]
    exact hrest r hne

end

section

variable {R : Reals} {frame : Frame} {decl : LocalId → Option (Ty × Bool)}
  {iv : LocalId → Option Interval}
  {result : Ty} {Γ U : Set LocalId} {p e : Nat} {t : Tree} {ts : List Tree} {m : LocalId → Value}
  {s : State} {code : List Instruction} {ending : Ending}

/-- The code of a statement goes its way. -/
def StmtArrives (R : Reals) (frame : Frame) (iv : LocalId → Option Interval) (result : Ty) (e : Nat)
    (t : Tree) : Prop :=
  ∀ (Γ U : Set LocalId) (p : Nat) (m : LocalId → Value) (s : State) (code : List Instruction)
    (l : Option Location) (ending : Ending), Performs R result t m ending →
      Computed frame t code l →
    t.Scoped Γ U → t.Charted iv p → Standing iv Γ ∅ p e → p + t.points ≤ e →
    Holds frame (live iv Γ ∅ p) m s →
    Arrives R frame result (live iv (withLocals Γ t.defines) ∅ (p + t.points)) code s ending

theorem arrives_expr (hF : Housed frame) (hlay : Layout decl iv (storageOf frame.locals))
    (he : t.IsExpr) : StmtArrives R frame iv result e t := by
  intro Γ U p m s code l ending hperforms hcode hs hc hst hpe h
  cases hperforms with
  | expr heval =>
    obtain ⟨s', hreaches⟩ := reaches_expr hF hlay heval hcode (he.scopedExpr hs) hc hst hpe h
    exact ⟨s', hreaches.leads, hreaches.stays, hreaches.holds⟩
  | ret | retValue | seq => exact he.elim

theorem arrives_all (ih : ∀ t ∈ ts, StmtArrives R frame iv result e t)
    (hperforms : PerformsAll R result ts m ending) (hcode : ComputedAll frame ts code)
    (hs : Tree.InOrder Tree.Scoped Γ U ts) (hc : Tree.ChartedAll iv p ts)
    (hst : Standing iv Γ ∅ p e) (hpe : p + Tree.pointsAll ts ≤ e)
    (h : Holds frame (live iv Γ ∅ p) m s) :
    Arrives R frame result (live iv (withLocals Γ (Tree.definesAll ts)) ∅ (p + Tree.pointsAll ts))
      code s ending := by
  induction ts generalizing Γ U p m s code with
  | nil =>
    cases hcode
    cases hperforms
    refine ⟨s, .nil s, .refl _ s, ?_⟩
    simpa only [Tree.definesAll, withLocals_nil, Tree.pointsAll, Nat.add_zero] using h
  | cons t rest ihrest =>
    rw [Tree.pointsAll] at hpe
    cases hcode with
    | @cons _ _ l codeₜ codeᵣ hcodeₜ hcodeᵣ =>
      have ht := ih t List.mem_cons_self
      cases hperforms with
      | @returns _ _ _ v hperform =>
        obtain ⟨s', hfinish, hreturned⟩ :=
          ht Γ U p m s codeₜ l _ hperform hcodeₜ hs.1 hc.1 hst (by omega) h
        refine ⟨s', fun more => ?_, hreturned⟩
        rw [List.append_assoc, hfinish]
      | @falls _ _ _ m' _ hperform hperforms =>
        obtain ⟨s₁, hleads, hstays, hholds⟩ := ht Γ U p m s codeₜ l _ hperform hcodeₜ hs.1 hc.1 hst
          (by omega) h
        have hrest := ihrest (fun a ha => ih a (List.mem_cons_of_mem _ ha)) hperforms hcodeᵣ hs.2
          hc.2 (hst.after hc.1) (by omega) hholds
        rw [Tree.definesAll, withLocals_append, Tree.pointsAll, ← Nat.add_assoc]
        cases ending with
        | falls m'' =>
          obtain ⟨s', hleads', hstays', hholds'⟩ := hrest
          exact ⟨s', hleads.append hleads', hstays.trans hstays', hholds'⟩
        | returns v =>
          obtain ⟨s', hfinish, hreturned⟩ := hrest
          refine ⟨s', fun more => ?_, ?_⟩
          · rw [List.append_assoc, hleads, hfinish]
          · exact hreturned.after hstays

theorem arrives_stmt (hF : Housed frame) (hlay : Layout decl iv (storageOf frame.locals))
    (t : Tree) : StmtArrives R frame iv result e t := by
  induction t using Tree.induction with
  | const | load | failFast => exact arrives_expr hF hlay trivial
  | operator t f hf _ =>
    intro Γ U p m s code l ending hperforms hcode hs
    exact arrives_expr hF hlay ((Tree.scoped_operator hf).mp hs).isExpr Γ U p m s code l ending
      hperforms hcode hs
  | seq tag body ih =>
    intro Γ U p m s code l ending hperforms hcode hs hc hst hpe h
    cases hcode with
    | seq hcode =>
      cases hperforms with
      | expr heval => cases heval
      | seq hperforms =>
        have hall := arrives_all ih hperforms hcode (Tree.scoped_seq.mp hs).2 hc hst hpe h
        cases ending with
        | returns v => exact hall
        | falls m' =>
          obtain ⟨s', hleads, hstays, hholds⟩ := hall
          refine ⟨s', hleads, hstays, fun x hx => hholds x (live_mono ?_ (le_refl _) hx)⟩
          exact fun _ hx => hx.imp id (absurd · List.not_mem_nil)
  -- there is no code for these
  | ifThen | ifElse | loop =>
    intro Γ U p m s code l ending hperforms hcode
    cases hcode
  | ret tag =>
    intro Γ U p m s code l ending hperforms hcode hs hc hst hpe h
    cases hcode
    cases hperforms with
    | expr heval => cases heval
    | ret => exact arrives_epilogue hF.size_le (.nil s) (.refl _ s) (by simp)
  | retValue tag value _ =>
    intro Γ U p m s code l ending hperforms hcode hs hc hst hpe h
    cases hperforms with
    | expr heval => cases heval
    | @retValue _ _ _ m' v heval hty =>
      cases hcode with
      | @retConst _ _ c hconst =>
        obtain rfl := eq_of_unstoredConstant? heval hconst
        obtain ⟨s₁, hleads, hchanges, hword⟩ := leads_constant (R := R) (s := s) hF.size_le
          (within_resultLocation value.ty) v
        refine arrives_epilogue hF.size_le hleads hchanges.toStays ?_
        rintro w hw
        cases hw
        rw [← hty, hword]
      | @retValue _ _ source codeᵥ _ hcodeᵥ =>
        obtain ⟨s₁, hreaches⟩ := reaches_expr hF hlay heval hcodeᵥ hs.2 hc hst hpe h
        obtain ⟨s₂, hleads, hchanges, hword⟩ := leads_move (R := R) (s := s₁) hF.size_le
          (within_resultLocation value.ty) source
        have hvalue : ∀ w, some v = some w → s₂.word (Emit.resultLocation result) = w.toBits := by
          rintro w hw
          cases hw
          rw [← hty, hword]
          exact hreaches.word source rfl
        obtain ⟨s', hfinish, hreturned⟩ := arrives_epilogue hF.size_le
          (hreaches.leads.append hleads) (hreaches.stays.trans hchanges.toStays) hvalue
        refine ⟨s', fun rest => ?_, hreturned⟩
        rw [← hfinish rest]
        simp only [List.append_assoc]

end

end Codewright.Native
