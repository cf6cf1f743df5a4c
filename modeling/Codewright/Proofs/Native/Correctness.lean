import Codewright.Proofs.Native.Frames
import Codewright.Proofs.Native.InPlaceMeaning

/-!
# Machine code computes what the tree does

A function that has been built and assembled is entered with its arguments in the registers of their
positions. The processor decodes its bytes from the start that has been noted and comes to a return,
with the stack pointer where it was and with the value of the tree in the register of the result.
All that it writes lies in the frame that its first instruction reserves, and the code before it is
as it was.
-/

namespace Codewright.Native

open Evaluation

/-! ## The convention -/

/-- The register of an argument: a real is in the vector register of its position, all else in the
general register. Only the first four arguments have registers. -/
def argumentRegister? (position : Nat) (ty : Ty) : Option Register :=
  match position with
  | 0 => some (if ty = .real then .xmm0 else .rcx)
  | 1 => some (if ty = .real then .xmm1 else .rdx)
  | 2 => some (if ty = .real then .xmm2 else .r8)
  | 3 => some (if ty = .real then .xmm3 else .r9)
  | _ => none

def resultRegister (ty : Ty) : Register := if ty = .real then .xmm0 else .rax

/-- A function is entered: the arguments are of the types of its parameters and in their registers,
and nothing has been written yet. The parameter at a position is the local with the next number. -/
structure Entered (types : List Ty) (values : LocalId → Value) (s : State) : Prop where
  typed : ∀ (k : Nat) (ty : Ty), types[k]? = some ty → ty.Suits (values (k + 1))
  placed : ∀ (k : Nat) (ty : Ty) (register : Register), types[k]? = some ty →
    argumentRegister? k ty = some register →
    s.registers register = (values (k + 1)).toBits
  unwritten : s.written = []

/-- The size of the frame that is reserved at a position. -/
def reservedAt (code : List UInt8) (position : Nat) : UInt64 :=
  match fetch? code position with
  | some (.reserve size, _) => size.toUInt64
  | _ => 0

theorem argumentRegister?_eq (position : Nat) (ty : Ty) :
    argumentRegister? position ty = parameterRegister? position ty := by
  rcases position with _ | _ | _ | _ | position
  · cases ty <;> rfl
  · cases ty <;> rfl
  · cases ty <;> rfl
  · cases ty <;> rfl
  · rfl

theorem resultLocation_eq_register (ty : Ty) :
    Emit.resultLocation ty = .register (resultRegister ty) := by
  cases ty <;> rfl

/-! ## Entering -/

section

variable {R : Reals} {size : Nat}

/-- The prologue makes room for the frame and leaves all else. -/
theorem leads_prologue (hsize : size ≤ 0x80) (s : State) :
    ∃ s', Leads R (prologueCode size) s s' ∧ s'.registers .rsp = s.registers .rsp - size.toUInt64 ∧
      s'.written = s.written ∧ ∀ r, r ≠ .rsp → s'.registers r = s.registers r := by
  unfold prologueCode
  by_cases hpos : size > 0
  · rw [if_pos hpos]
    refine ⟨s.set .rsp (s.registers .rsp - size.toUInt64), ?_, s.registers_set_self _ _, rfl,
      fun r hr => s.registers_set_of_ne hr _⟩
    refine .instruction (by simp) ?_
    show s.set .rsp (s.registers .rsp - size.toUInt32.toUInt64) = _
    rw [toUInt64_toUInt32 hsize]
  · rw [if_neg hpos, Nat.eq_zero_of_not_pos hpos]
    exact ⟨s, .nil s, (UInt64.sub_zero _).symm, rfl, fun _ _ => rfl⟩

theorem paramTypes_toInPlace {r : Routine} (h : r.WellScoped) :
    r.toInPlace.1.paramTypes = r.paramTypes := by
  refine List.ext_getElem? fun k => ?_
  rw [Routine.getElem?_paramTypes, Routine.getElem?_paramTypes]
  show (if k < r.paramCount then _ else none) = _
  split
  · next hk => rw [r.extended_toInPlace.kept (k + 1) (Nat.lt_of_le_of_lt hk h.paramCount_lt)]
  · rfl

/-- Behind the prologue the parameters are at their places. -/
theorem holds_entered {r : Routine} (h : r.WellScoped) {values : LocalId → Value} {s s' : State}
    (hcount : r.paramCount ≤ argumentRegisters.length) (he : Entered r.paramTypes values s)
    (hs : ∀ r, r ≠ .rsp → s'.registers r = s.registers r) :
    Holds (frameOf r) r.parameters values s' := by
  intro x hx
  obtain ⟨k, hk, rfl⟩ := h.arranged.mem_parameters_iff.mp hx
  have htype := h.arranged.paramTypes_eq_localType hk
  obtain ⟨register, hregister⟩ := exists_parameterRegister (Nat.lt_of_lt_of_le hk hcount)
    (r.localType (k + 1))
  have hne : register ≠ .rsp := by
    rintro rfl
    exact absurd (mem_localRegisters_of_parameter hregister) (by decide)
  rw [storageOf_frameOf, place_parameter_eq_register h.toInPlace.arranged hk
    ((congrArg (·[k]?) (paramTypes_toInPlace h)).trans htype) hregister]
  show s'.registers register = _
  rw [hs register hne, he.placed k _ register htype (by rw [argumentRegister?_eq, hregister])]

/-- The tree of a built routine returns, and its in-place form returns the same. -/
theorem returns_built {symbols : Symbols} {r : Routine} (hb : r.Built symbols)
    (hc : Codable r.toInPlace.1.body) {values : LocalId → Value}
    (hvalues : ∀ x ∈ r.parameters, (r.localType x).Suits (values x)) (R : Reals) (fuel : Nat) :
    ∃ v ended, eval R.meaning separate fuel r.body { memory := values } =
      .error (.returned v) ended ∧
      Performs R r.result r.toInPlace.1.body values (.returns v) ∧
      (v.isSome = true ↔ r.result ≠ .void) ∧ ∀ w, v = some w → r.result.Suits w := by
  have htyped := hb.typed _ (Routine.fits_typing symbols r) rfl
  have hnode : NodePerforms R (r.typing symbols) r.locals.size fuel r.body :=
    performs_node hb.bare htyped (codable_of_node hc) hb.inTable
  obtain ⟨e, hperforms, hends⟩ := hnode { locals := r.locals } { memory := values } values
    r.parameters r.parameters hb.inScope hvalues (le_refl _) (fun _ _ => rfl)
  generalize eval R.meaning separate fuel r.body { memory := values } = result at hends
  cases hends with
  | falls hreturns => exact absurd (hb.returns.symm.trans hreturns) (by simp)
  | @returns v ended hsome hsuits => exact ⟨v, ended, rfl, hperforms, hsome, hsuits⟩

/-! ## Functions -/

/-- What a function does when it is entered. -/
structure Runs (R : Reals) (fuel : Nat) (r : Routine) (code : List UInt8) (start : Nat)
    (values : LocalId → Value) (s : State) (v : Option Value) (s' : State) : Prop where
  evaluated : ∃ ended, eval R.meaning separate fuel r.body { memory := values } =
    .error (.returned v) ended
  reached : ∃ steps, run R code steps start s = some s'
  rsp : s'.registers .rsp = s.registers .rsp
  result : r.result.isValue = true →
    ∃ w, v = some w ∧ w.ty = r.result ∧ s'.registers (resultRegister r.result) = w.toBits
  framed : ∀ address ∈ s'.written,
    (address - (s.registers .rsp - reservedAt code start)).toNat < (reservedAt code start).toNat

/-- The first instruction of a function with a frame reserves it. -/
theorem reservedAt_prologue (hsize : size ≤ 0x80) (hpos : size > 0) {code : List Instruction}
    {bytes : List UInt8} (h : Encoded (prologueCode size ++ code) bytes)
    (before after : List UInt8) :
    reservedAt (before ++ (bytes ++ after)) before.length = size.toUInt64 := by
  rw [prologueCode, if_pos hpos] at h
  cases h with
  | @cons _ _ b bs hi his =>
    have hrange : (Instruction.reserve size.toUInt32).InRange := by
      simp [Instruction.InRange, Instruction.operands]
    unfold reservedAt
    rw [List.append_assoc, fetch?_bytes hrange hi]
    exact toUInt64_toUInt32 hsize

/-- The code that has been added for a routine runs as its body does. -/
theorem Added.runs {symbols : Symbols} {r : Routine} {a a' : Assembler} (h : Added a r a')
    (hb : r.Built symbols) (R : Reals) (fuel : Nat) {values : LocalId → Value} {s : State}
    (he : Entered r.paramTypes values s) (after : List UInt8) :
    ∃ v s', Runs R fuel r (a'.code.toList ++ after)
      (a.code ++ padding a.code.size 16).size values s v
      s' := by
  obtain ⟨body, l, bytes, hbody, hbytes, hcode⟩ := h.code
  have hF := housed_frameOf hb.toWellScoped h.params hbody
  have hscoped := hb.toWellScoped.toInPlace
  have hvalues : ∀ x ∈ r.parameters, (r.localType x).Suits (values x) := by
    intro x hx
    obtain ⟨k, hk, rfl⟩ := hb.arranged.mem_parameters_iff.mp hx
    exact he.typed k _ (hb.arranged.paramTypes_eq_localType hk)
  obtain ⟨v, ended, heval, hperforms, hsome, hsuits⟩ :=
    returns_built hb hbody.codable hvalues R fuel
  obtain ⟨s₀, hprologue, hrsp₀, hwritten₀, hregisters₀⟩ := leads_prologue (R := R) hF.size_le s
  have hlay : Layout (declared r.toInPlace.1.locals) r.toInPlace.1.computedInterval
      (storageOf (frameOf r).locals) := by
    rw [storageOf_frameOf]
    exact Target.x64.layout hscoped
  have hholds : Holds (frameOf r)
      (live r.toInPlace.1.computedInterval r.toInPlace.1.parameters ∅ 0) values s₀ := by
    intro x hx
    refine holds_entered hb.toWellScoped h.params he hregisters₀ x ?_
    rw [← Routine.parameters_toInPlace]
    exact hx.1
  obtain ⟨s', hfinish, hreturned⟩ := arrives_stmt hF hlay r.toInPlace.1.body _ _ 0 values s₀ body l
    (.returns v) hperforms hbody hscoped.inScope (Routine.charted hscoped) (Routine.standing _)
    (Nat.zero_add _).le hholds
  have hfinished :
    finish R (prologueCode (frameOf r).size ++ (body ++ epilogueCode (frameOf r).size)) s =
      some s' := by
    rw [hprologue, hfinish]
  have hrange : ∀ i ∈ prologueCode (frameOf r).size ++ (body ++ epilogueCode (frameOf r).size),
      i.InRange := by
    have hplaces := placesExist_frameOf hb.toWellScoped
    exact List.forall_mem_append.mpr ⟨inRange_prologue _,
      List.forall_mem_append.mpr ⟨(hbody.inRange hplaces).1, inRange_epilogue _⟩⟩
  -- the routine stands behind the earlier code and its padding
  generalize hbefore : (a.code ++ padding a.code.size 16).toList = before
  have hall : a'.code.toList ++ after = before ++ (bytes ++ after) := by
    rw [hcode, Array.toList_appendList, hbefore, List.append_assoc]
  have hstart : (a.code ++ padding a.code.size 16).size = before.length := by
    rw [← hbefore, Array.length_toList]
  rw [hall, hstart]
  refine ⟨v, s', ⟨ended, heval⟩, ⟨_, run_of_finish hbytes hrange hfinished before after⟩, ?_, ?_,
    ?_⟩
  · rw [hreturned.rsp, hrsp₀, UInt64.sub_add_cancel]
  · intro hvalue
    have hne : r.result ≠ .void := by
      intro hvoid
      rw [hvoid] at hvalue
      cases hvalue
    obtain ⟨w, rfl⟩ := Option.isSome_iff_exists.mp (hsome.mpr hne)
    have hword := hreturned.value w rfl
    rw [resultLocation_eq_register] at hword
    exact ⟨w, rfl, hsuits w rfl hvalue, hword⟩
  · intro address haddress
    rcases hreturned.written address haddress with hold | hin
    · rw [hwritten₀, he.unwritten] at hold
      cases hold
    · -- something has been written, so there is a frame
      have hpos : (frameOf r).size > 0 := Nat.lt_of_le_of_lt (Nat.zero_le _) hin
      have hsize := hF.size_le
      have hnat : ((frameOf r).size.toUInt64).toNat = (frameOf r).size := by
        simp only [Nat.toUInt64_eq, UInt64.toNat_ofNat']
        omega
      rw [reservedAt_prologue hsize hpos hbytes, hnat, ← hrsp₀]
      exact hin

/-! ## Tables of functions -/

theorem setFunction_self (a : Assembler) (n : Nat) (name : String) (start : Nat) :
    (a.setFunction n name start).functions[n]? = some (some (name, start)) := by
  have hsize : n < (a.functions ++ Array.replicate (n + 1 - a.functions.size) none).size := by
    rw [Array.size_append, Array.size_replicate]
    omega
  show (Array.setIfInBounds _ n _)[n]? = _
  rw [Array.getElem?_setIfInBounds_self, if_pos hsize]

theorem setFunction_of_ne (a : Assembler) {n m : Nat} (h : m ≠ n) (name : String) (start : Nat) :
    ((a.setFunction n name start).functions[m]?).join = (a.functions[m]?).join := by
  show ((Array.setIfInBounds _ n _)[m]?).join = _
  rw [Array.getElem?_setIfInBounds_ne (Ne.symm h), Array.getElem?_append]
  by_cases hm : m < a.functions.size
  · rw [if_pos hm]
  · rw [if_neg hm, Array.getElem?_eq_none (Nat.le_of_not_lt hm), Array.getElem?_replicate]
    split <;> rfl

end

/-! ## A function with a frame -/

namespace Spilling

/-- Adds up more reals than there are registers for. -/
def function : Surface.Function where
  name := "mix"
  isPublic := true
  result := .real
  params := [⟨"n", .int, default⟩, ⟨"x", .real, default⟩]
  body := {
    body := [.ret (some (.binary .add (.name "n" default)
      (.binary .add (.name "n" default)
        (.binary .add (.name "n" default)
          (.binary .mul (.name "n" default) (.name "x" default) default) default) default)
            default)) default]
    span := default }
  span := default

abbrev symbols : Symbols := .alone function

def routine : Routine where
  id := 0
  fullName := "main.mix"
  locals := #[
    { name := "$result", ty := .real },
    { name := "n", ty := .int, uses := 4, isParameter := true },
    { name := "x", ty := .real, uses := 1, isParameter := true }]
  paramCount := 2
  body := .seq { ty := .void } [
    .retValue { ty := .void } (.binary { ty := .real } .add (.load { ty := .int } 1)
      (.binary { ty := .real } .add (.load { ty := .int } 1)
        (.binary { ty := .real } .add (.load { ty := .int } 1)
          (.binary { ty := .real } .mul (.load { ty := .int } 1) (.load { ty := .real } 2)))))]

open Build.Evaluated in
theorem buildRoutine_function : buildRoutine symbols "main" function = (.ok routine, []) := by
  have hfull : fullName "main" "mix" = "main.mix" := by decide +kernel
  have hn : foldName "n" = "n" ∧ "n".contains '.' = false := ⟨by decide +kernel, by cbv⟩
  have hx : foldName "x" = "x" ∧ "x".contains '.' = false := ⟨by decide +kernel, by cbv⟩
  have hadd : Intrinsic.add.check [.int, .real] = .ok .real := rfl
  have hmul : Intrinsic.mul.check [.int, .real] = .ok .real := rfl
  unfold buildRoutine
  simp only [Symbols.function?_alone]
  simp [function, routine, functionSymbol, hfull, foldName_main, hn, hx, hadd, hmul,
    Symbols.resolveConstant?_alone, Std.HashMap.getElem_insert]

/-- The program that is this function alone. Two of the four converted reals are in the frame. -/
def program : Assembler where
  code := #[
    0x48, 0x83, 0xec, 0x10, 0x48, 0x89, 0xca, 0x49, 0x89, 0xd3, 0xf2, 0x49, 0x0f, 0x2a, 0xe3, 0xf2,
    0x0f, 0x11, 0x64, 0x24, 0x00, 0x48, 0x89, 0xca, 0x49, 0x89, 0xd3, 0xf2, 0x49, 0x0f, 0x2a, 0xe3,
    0xf2, 0x0f, 0x11, 0x64, 0x24, 0x08, 0x48, 0x89, 0xca, 0x49, 0x89, 0xd3, 0xf2, 0x49, 0x0f, 0x2a,
    0xe3, 0xf2, 0x0f, 0x10, 0xd4, 0x49, 0x89, 0xcb, 0xf2, 0x49, 0x0f, 0x2a, 0xe3, 0xf2, 0x0f, 0x10,
    0xdc, 0xf2, 0x0f, 0x10, 0xe3, 0xf2, 0x0f, 0x10, 0xe9, 0xf2, 0x0f, 0x59, 0xe5, 0xf2, 0x0f, 0x10,
    0xcc, 0xf2, 0x0f, 0x10, 0xe2, 0xf2, 0x0f, 0x10, 0xe9, 0xf2, 0x0f, 0x58, 0xe5, 0xf2, 0x0f, 0x10,
    0xcc, 0xf2, 0x0f, 0x10, 0x64, 0x24, 0x08, 0xf2, 0x0f, 0x10, 0xe9, 0xf2, 0x0f, 0x58, 0xe5, 0xf2,
    0x0f, 0x10, 0xcc, 0xf2, 0x0f, 0x10, 0x64, 0x24, 0x00, 0xf2, 0x0f, 0x10, 0xe9, 0xf2, 0x0f, 0x58,
    0xe5, 0xf2, 0x0f, 0x10, 0xc4, 0x48, 0x83, 0xc4, 0x10, 0xc3, 0x48, 0x83, 0xc4, 0x10, 0xc3]
  functions := #[some ("main.mix", 0)]

theorem add_routine : ({} : Assembler).add routine = (.ok (), program) := by cbv

theorem reservedAt_program : reservedAt program.code.toList 0 = 16 := by cbv

/-- The arguments, as the locals of the parameters. -/
def arguments (n : Int64) (x : Double) (id : LocalId) : Value := if id = 1 then .int n else .real x

def value (R : Reals) (n : Int64) (x : Double) : Double :=
  R.add (R.ofInt n) (R.add (R.ofInt n) (R.add (R.ofInt n) (R.mul (R.ofInt n) x)))

theorem eval_routine (R : Reals) (n : Int64) (x : Double) :
    ∃ ended, eval R.meaning separate 0 routine.body { memory := arguments n x } =
      .error (.returned (some (.real (value R n x)))) ended :=
  ⟨_, rfl⟩

def entry (n : Int64) (x : Double) : State where
  registers
    | .rcx => n.toUInt64
    | .xmm1 => x.bits
    | .rsp => 0x1000
    | _ => 0
  memory _ := 0
  written := []

theorem entered (n : Int64) (x : Double) : Entered routine.paramTypes (arguments n x)
    (entry n x) := by
  refine ⟨?_, ?_, rfl⟩
  · rintro (_ | _ | k) ty hty
    · cases hty
      exact fun _ => rfl
    · cases hty
      exact fun _ => rfl
    · cases hty
  · rintro (_ | _ | k) ty register hty hregister
    · cases hty
      cases hregister
      rfl
    · cases hty
      cases hregister
      rfl
    · cases hty

end Spilling

/-! ## The theorem -/

/-- Machine code computes what the tree does. When a built routine has been added to a program, with
its constants folded or not, the code before it and the entries of the other functions are as they
were. Entered at its start with arguments of the right types, whatever code follows it, the function
returns where the evaluation of its tree returns; the stack pointer is what it was, a result is in
its register with all bits, and all writes lie in the frame that the function has reserved. -/
theorem assembled_function_computes {symbols : Symbols} {moduleName : String} {f : Surface.Function}
    {built : Routine} {spans : List Source.Span}
    (hbuild : buildRoutine symbols moduleName f = (.ok built, spans)) (optimize : Bool)
    {a a' : Assembler}
    (hadd : a.add (if optimize then built.foldConstants.1 else built) = (.ok (), a')) :
    let r := if optimize then built.foldConstants.1 else built
    a.code.toList <+: a'.code.toList ∧
    (∀ n, n ≠ r.id → (a'.functions[n]?).join = (a.functions[n]?).join) ∧
    ∃ start, a'.functions[r.id]? = some (some (r.fullName, start)) ∧ a.code.size ≤ start ∧
      ∀ (R : Reals) (fuel : Nat) (values : LocalId → Value) (s : State) (after : List UInt8),
        Entered r.paramTypes values s →
        ∃ v s', Runs R fuel r (a'.code.toList ++ after) start values s v s' := by
  intro r
  have hb : r.Built symbols := by
    have hbuilt := built_of_buildRoutine hbuild
    show (if optimize then built.foldConstants.1 else built).Built symbols
    split
    · exact hbuilt.foldConstants
    · exact hbuilt
  have hadded := a.add_spec r
  rw [show a.add r = (.ok (), a') from hadd] at hadded
  have hadded : Added a r a' := hadded
  refine ⟨?_, fun n hn => ?_, (a.code ++ padding a.code.size 16).size, ?_, ?_, ?_⟩
  · obtain ⟨body, l, bytes, -, -, hcode⟩ := hadded.code
    rw [hcode, Array.toList_appendList, Array.toList_appendList, List.append_assoc]
    exact List.prefix_append _ _
  · rw [hadded.functions]
    exact setFunction_of_ne a hn _ _
  · rw [hadded.functions]
    exact setFunction_self a _ _ _
  · rw [← Array.length_toList, ← Array.length_toList, Array.toList_appendList, List.length_append]
    exact Nat.le_add_right _ _
  · intro R fuel values s after he
    exact hadded.runs hb R fuel he after

open Spilling in
theorem assembled_function_computes_spilling :
    buildRoutine symbols "main" function = (.ok routine, []) ∧
    ({} : Assembler).add routine = (.ok (), program) ∧
    ∀ (R : Reals) (n : Int64) (x : Double), ∃ steps s',
      run R program.code.toList steps 0 (entry n x) = some s' ∧ s'.registers .rsp = 0x1000 ∧
        s'.registers .xmm0 = (value R n x).bits ∧
        ∀ address ∈ s'.written, (address - (0x1000 - 16)).toNat < 16 := by
  refine ⟨buildRoutine_function, add_routine, fun R n x => ?_⟩
  obtain ⟨-, -, start, hstart, -, hruns⟩ :=
    assembled_function_computes buildRoutine_function false add_routine
  obtain rfl : 0 = start := by simpa [program, routine] using hstart
  obtain ⟨v, s', hrun⟩ := hruns R 0 (arguments n x) (entry n x) [] (entered n x)
  rw [List.append_nil] at hrun
  obtain ⟨ended, heval⟩ := eval_routine R n x
  obtain ⟨ended', heval'⟩ := hrun.evaluated
  obtain ⟨steps, hsteps⟩ := hrun.reached
  obtain ⟨w, rfl, -, hresult⟩ := hrun.result rfl
  have hframed := hrun.framed
  rw [reservedAt_program] at hframed
  cases heval.symm.trans heval'
  exact ⟨steps, s', hsteps, hrun.rsp, hresult, hframed⟩

end Codewright.Native
