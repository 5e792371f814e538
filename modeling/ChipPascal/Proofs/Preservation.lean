import ChipPascal.Machine.Inspect
import ChipPascal.Proofs.Loading

/-!
# Compiling preserves meaning

The machine that runs the listing of a program halts where the reference run of the program ends,
and then every global variable and every recorded digit has the value that the reference run gives
it.
-/

namespace ChipPascal

open Machine Line
open Lowering hiding State

/-! ### Looking at memory -/

theorem bytes?_eq (s : State) {a n : Nat} (h : a + n ≤ memorySize) :
    s.bytes? a n = some ((List.range n).map fun i => s.byte (a + i)) := by
  rw [State.bytes?, if_pos h]
  congr 1
  apply List.ext_getElem?
  intro i
  by_cases hi : i < n
  · have hMem : a + i < memorySize := by omega
    simp [hi, State.byte, hMem]
  · have hPast : n ≤ i := Nat.le_of_not_lt hi
    have hTaken : min n (memorySize - a) ≤ i := Nat.le_trans (Nat.min_le_left _ _) hPast
    rw [List.getElem?_eq_none (by simpa using hTaken), List.getElem?_eq_none (by simpa using hPast)]

section

variable {program : Program} {stackWords : Nat} {lines : List Line} {image : Image} {w : World}
  {s : State}

theorem Assembled.bytesAt?_eq (h : Assembled lines image) {l : Label} (hl : l ∈ labelsOf lines)
    {n : Nat} (hFits : (image.addr l).toNat + n ≤ memorySize) :
    bytesAt? image s l.text n =
      some ((List.range n).map fun i => s.byte ((image.addr l).toNat + i)) := by
  obtain ⟨pre, rest, hLines⟩ := mem_labelsOf.mp hl
  rw [bytesAt?, h.label hLines, ← h.addr_eq hLines]
  exact bytes?_eq s hFits

theorem isWide_typeOf (decl : VarDecl) :
    decl.typeOf.isWide = decide (decl.type.name = ValueType.long.keyword) := by
  show ((ValueType.ofKeyword? decl.type.name).getD .integer).isWide = _
  unfold ValueType.ofKeyword?
  split
  · next hName =>
    rw [hName]
    decide
  · next hName =>
    rw [hName]
    decide
  · next _ hName => exact (decide_eq_false hName).symm

theorem toNat_word (low high : UInt8) :
    (low.toUInt16 + high.toUInt16 * 256).toNat = word low high := by
  have hLow : low.toNat < 256 := low.toNat_lt
  have hHigh : high.toNat < 256 := high.toNat_lt
  have hShift : (256 : UInt16).toNat = 256 := rfl
  simp only [word, UInt16.toNat_add, UInt16.toNat_mul, UInt8.toNat_toUInt16, hShift]
  omega

/-- What is read at the label of a global is what memory holds there. -/
theorem Assembled.globalValue?_eq (h : Assembled lines image) (decl : VarDecl)
    (hl : .global decl.name.name ∈ labelsOf lines)
    (hFits : (image.addr (.global decl.name.name)).toNat + 2 ≤ memorySize) :
    globalValue? image s decl =
      some (s.valueAt (image.addr (.global decl.name.name)).toNat decl.typeOf.isWide) := by
  by_cases hType : decl.type.name = ValueType.long.keyword
  · have hBytes : bytesAt? image s (Label.global decl.name.name).text 2 =
        some [s.byte (image.addr (.global decl.name.name)).toNat,
          s.byte ((image.addr (.global decl.name.name)).toNat + 1)] := h.bytesAt?_eq hl hFits
    simp only [globalValue?, hType, if_true, wordAt?, hBytes, Option.map_some, toNat_word,
      State.valueAt, isWide_typeOf, decide_true]
  · have hByte : bytesAt? image s (Label.global decl.name.name).text 1 =
        some [s.byte (image.addr (.global decl.name.name)).toNat] :=
      h.bytesAt?_eq hl (by omega)
    simp [globalValue?, hType, byteAt?, hByte, State.valueAt, isWide_typeOf, word]

theorem Assembled.digits_eq (h : Assembled lines image) {l : Label} (hl : l ∈ labelsOf lines)
    (hFits : (image.addr l).toNat + 3 ≤ memorySize) {digits : List Nat}
    (hDigits : s.digitsAt (image.addr l).toNat = digits) :
    (bytesAt? image s l.text 3).map (·.map UInt8.toNat) = some digits := by
  rw [h.bytesAt?_eq hl hFits, ← hDigits]
  rfl

/-! ### Whole programs -/

/-- The machine stands at its end with the values of the world. -/
structure HaltsWith (program : Program) (image : Image) (w : World) (s : State) : Prop where
  halts : step image s = .ok (.halted s)
  globals : ∀ decl ∈ program.globals, globalValue? image s decl = some (w.globals decl.name.name)
  bcdLow : (bytesAt? image s Label.bcdLow.text 3).map (·.map UInt8.toNat) = some w.bcdLow
  bcdHigh : (bytesAt? image s Label.bcdHigh.text 3).map (·.map UInt8.toNat) = some w.bcdHigh

/-- At the final jump the machine halts, and shows the world that memory holds. -/
theorem Loaded.haltsWith (h : Loaded program lines image) {rest : List Line}
    (hPc : At lines (.label .finish :: plain (.jump .finish) :: rest) s.pc)
    (hWorld : HoldsWorld program image.addr w s)
    {code : List Line}
    (hData : lines = code ++ dataSection (program.globals.map (·.name.name)) stackWords) :
    HaltsWith program image w s := by
  have hLt := h.data.digits_lt h.room
  have hHigh := h.data.bcdHigh
  have hLabels : ∀ l, l ∈ (program.globals.map (·.name.name)).map Label.global ++
      [.bcdLow, .bcdHigh, .stackZone] → l ∈ labelsOf lines := by
    intro l hl
    rw [hData, labelsOf_append, labelsOf_dataSection]
    exact List.mem_append_right _ hl
  refine ⟨?_, ?_, ?_, ?_⟩
  · have hSelf : image.addr .finish = s.pc := by
      obtain ⟨pre, hLines, hPc⟩ := hPc
      rw [hPc, h.assembled.addr_eq hLines]
    exact h.assembled.step_halted (At.pass rfl hPc) hSelf
  · intro decl hDecl
    have hFind := findVar_of_mem (Program.globals_nodup h.named) hDecl
    have hLe := h.data.global decl.name.name (List.mem_map_of_mem hDecl)
    rw [h.assembled.globalValue?_eq decl (hLabels _ (by simpa using ⟨decl, hDecl, rfl⟩)) (by omega),
      hWorld.global _ _ hFind]
  · exact h.assembled.digits_eq (hLabels _ (by simp)) (by omega) hWorld.bcdLow
  · exact h.assembled.digits_eq (hLabels _ (by simp)) hLt hWorld.bcdHigh

/-- All the way to its end, the machine makes only calls of the program. -/
theorem Compiled.run_route (h : Compiled program stackWords lines)
    (hImage : assemble? (listingText lines) = some image) (hRoom : HasRoom image.addr)
    {start : Nat → Store} (hStart : StartsFrom program image initial start) {fuel : Nat}
    (hRun : program.run start fuel = .ok w) :
    ∃ k s, Route image (Called program lines image initial) 0 k initial s ∧
      HaltsWith program image w s := by
  have hLoaded := h.loaded hImage hRoom
  obtain ⟨-, -, hCode⟩ := h
  obtain ⟨code, hSplit⟩ := hCode.split
  cases hCode with
  | @mk decls n main last n' hDecls hMain =>
  obtain ⟨s, hPath, hAt, hCalls, hs⟩ := hLoaded.path_setup rfl
  have hFrame : Framed program image.addr [] 0 0 :=
    ⟨hLoaded.named, trivial, hLoaded.data, hRoom, Nat.le_refl 0, Nat.zero_le _⟩
  have hReached : Reached image initial 0 s := Reached.path ⟨0, rfl, rfl⟩ hPath
  have hSim := hLoaded.sim_stmts hStart (hLoaded.serves hStart fuel) hFrame program.body.stmts
    hMain hAt hs hReached fun call hMem => ⟨_, List.mem_cons_self, hMem⟩
  obtain ⟨r, hBody, rfl⟩ := exists_of_bind_pure hRun
  rw [hBody] at hSim
  obtain ⟨k, t, hRoute, -, hAt', -, ht, -⟩ := hLoaded.getsTo_settle hFrame hSim
  exact ⟨0 + k, t, hPath.route.trans (hRoute.mono (Nat.zero_le _)),
    hLoaded.haltsWith (At.pass rfl hAt') ht.world hSplit⟩

/-- A run that ends in the meaning of the program halts on the machine with the same world. -/
theorem Compiled.run_halts (h : Compiled program stackWords lines)
    (hImage : assemble? (listingText lines) = some image) (hRoom : HasRoom image.addr)
    {start : Nat → Store} (hStart : StartsFrom program image initial start) {fuel : Nat}
    (hRun : program.run start fuel = .ok w) :
    ∃ n s, after image n initial = some s ∧ HaltsWith program image w s := by
  obtain ⟨k, s, ⟨n, hn, -⟩, hHalts⟩ := h.run_route hImage hRoom hStart hRun
  exact ⟨n, s, hn, hHalts⟩

end

/-- A run of the reference semantics that ends, with the stack never too high, is followed by the
machine to its end. What `start` tells of variables that are not parameters is what they find in
memory; there is always such a `start`. -/
theorem compile_preserves_meaning {source : String} {options : CompileOptions} {c : Compilation}
    {text : String} {image : Image} {z : UInt16} (hCompile : compile source options = .ok c)
    (hText : c.text? = some text) (hImage : assemble? text = some image)
    (hZone : image.labels.get? Label.stackZone.text = some z) (hRoom : z.toNat + 256 ≤ 0xFFF) :
    (∃ start, StartsFrom (parse source).1 image initial start) ∧
      ∀ start fuel w, StartsFrom (parse source).1 image initial start →
        (parse source).1.run start fuel = .ok w →
        ∃ n s, after image n initial = some s ∧ HaltsWith (parse source).1 image w s := by
  obtain ⟨lines, hLines, rfl⟩ := Option.map_eq_some_iff.mp hText
  have hCompiled := compile_listing hCompile hLines
  have hHasRoom := hasRoom_of_get? hZone hRoom
  refine ⟨(hCompiled.loaded hImage hHasRoom).exists_startsFrom initial, ?_⟩
  intro start fuel w hStart hRun
  exact hCompiled.run_halts hImage hHasRoom hStart hRun

/-- A procedure with a parameter, an `integer` that is taken into a `long`. -/
def doubler : String :=
  "program p; var x: long; procedure f(n: integer); begin x := n + n end; begin f(200) end."

theorem exists_compiled_doubler : ∃ c lines, compile doubler ⟨4, false⟩ = .ok c ∧
    c.listing = some lines ∧ cellAddress (cellCount lines) + 256 ≤ 0xFFF := by
  obtain ⟨c, lines, hCompile, hLines, hSmall⟩ :=
    exists_listing (p := fun lines => cellAddress (cellCount lines) + 256 ≤ 0xFFF)
      (by
        rw [show compile doubler _ = _ from compile_ofList _ _]
        decide +kernel :
          ((compile doubler ⟨4, false⟩).toOption.bind (·.listing)).any _ = true)
  exact ⟨c, lines, hCompile, hLines, of_decide_eq_true hSmall⟩

theorem doubler_halts : ∃ c text image n s, compile doubler ⟨4, false⟩ = .ok c ∧
    c.text? = some text ∧ assemble? text = some image ∧ after image n initial = some s ∧
    step image s = .ok (.halted s) ∧
    ∃ decl ∈ (parse doubler).1.globals, globalValue? image s decl = some 400 := by
  obtain ⟨c, lines, hCompile, hLines, hSmall⟩ := exists_compiled_doubler
  have hText : c.text? = some (listingText lines) := by simp [Compilation.text?, hLines]
  obtain ⟨image, z, hImage, hZone, hRoom⟩ :=
    (compile_listing hCompile hLines).exists_image hSmall
  have hAll := (compile_preserves_meaning hCompile hText hImage hZone hRoom).2
  have hStart : StartsFrom (parse doubler).1 image initial fun _ _ => 0 := by
    refine startsFrom_of_no_locals ?_
    rw [show parse doubler = _ from parse_ofList _]
    decide +kernel
  have hValue :
      ((parse doubler).1.run (fun _ _ => 0) 3).toOption.map (·.globals "x") = some 400 := by
    rw [show parse doubler = _ from parse_ofList _]
    decide +kernel
  cases hRun : (parse doubler).1.run (fun _ _ => 0) 3 with
  | error e => simp [hRun, Except.toOption] at hValue
  | ok w =>
    obtain ⟨n, s, hAfter, hHalts⟩ := hAll _ 3 w hStart hRun
    have hDeclared : (parse doubler).1.globals.any (·.name.name = "x") = true := by
      rw [show parse doubler = _ from parse_ofList _]
      decide +kernel
    obtain ⟨decl, hDecl, hName⟩ := List.any_eq_true.mp hDeclared
    refine ⟨c, _, image, n, s, hCompile, hText, hImage, hAfter, hHalts.halts, decl, hDecl, ?_⟩
    rw [hHalts.globals decl hDecl, of_decide_eq_true hName]
    simpa [hRun, Except.toOption] using hValue

end ChipPascal
