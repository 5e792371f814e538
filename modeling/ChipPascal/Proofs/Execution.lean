import ChipPascal.Proofs.Layout

/-!
# Runs of the machine

Steps one after the other, with the number of calls made on the way and the depth to which the
calls in progress return at most. Lines that only go on to the next one are carried out in one
go.
-/

namespace ChipPascal

namespace Machine

variable {image : Image} {s t u : State} {m n k j depth : Nat}

/-- The state after `n` steps, none of which halts. -/
def after (image : Image) : Nat → State → Option State
  | 0, s => some s
  | n + 1, s =>
    match step image s with
    | .ok (.running t) => after image n t
    | _ => none

/-- The number of calls among the first `n` steps. -/
def callsMade (image : Image) : Nat → State → Nat
  | 0, _ => 0
  | n + 1, s =>
    match step image s with
    | .ok (.running t) => t.calls.length - s.calls.length + callsMade image n t
    | _ => 0

theorem after_succ (h : step image s = .ok (.running t)) (n : Nat) :
    after image (n + 1) s = after image n t := by
  simp only [after, h]

theorem callsMade_succ (h : step image s = .ok (.running t)) (n : Nat) :
    callsMade image (n + 1) s = t.calls.length - s.calls.length + callsMade image n t := by
  simp only [callsMade, h]

theorem step_of_after (h : after image (n + 1) s = some u) :
    ∃ t, step image s = .ok (.running t) ∧ after image n t = some u := by
  simp only [after] at h
  split at h
  · next t ht => exact ⟨t, ht, h⟩
  · simp at h

/-- What every step preserves holds along a run. -/
theorem invariant_after {I : State → Prop}
    (hStep : ∀ s t, I s → step image s = .ok (.running t) → I t) (hs : I s)
    (h : after image n s = some t) : I t := by
  induction n generalizing s with
  | zero =>
    obtain rfl := Option.some.inj h
    exact hs
  | succ n ih =>
    obtain ⟨r, hFirst, hRest⟩ := step_of_after h
    exact ih (hStep s r hs hFirst) hRest

theorem after_add (h : after image m s = some t) (n : Nat) :
    after image (m + n) s = after image n t := by
  induction m generalizing s with
  | zero =>
    obtain rfl := Option.some.inj h
    rw [Nat.zero_add]
  | succ m ih =>
    obtain ⟨r, hStep, hr⟩ := step_of_after h
    rw [Nat.succ_add, after_succ hStep, ih hr]

theorem callsMade_add (h : after image m s = some t) (n : Nat) :
    callsMade image (m + n) s = callsMade image m s + callsMade image n t := by
  induction m generalizing s with
  | zero =>
    obtain rfl := Option.some.inj h
    simp [callsMade]
  | succ m ih =>
    obtain ⟨r, hStep, hr⟩ := step_of_after h
    rw [Nat.succ_add, callsMade_succ hStep, callsMade_succ hStep, ih hr, Nat.add_assoc]

/-- The machine gets from `s` to `t` and makes `k` calls on the way, and always at least `depth`
calls are in progress. -/
def Path (image : Image) (depth k : Nat) (s t : State) : Prop :=
  ∃ n, after image n s = some t ∧ callsMade image n s = k ∧
    ∀ m ≤ n, ∀ u, after image m s = some u → depth ≤ u.calls.length

/-- A path on which every call is made in a state with `Q`. -/
def Route (image : Image) (Q : State → Prop) (depth k : Nat) (s t : State) : Prop :=
  ∃ n, after image n s = some t ∧ callsMade image n s = k ∧
    (∀ m ≤ n, ∀ u, after image m s = some u → depth ≤ u.calls.length) ∧
    ∀ m < n, ∀ u v, after image m s = some u → step image u = .ok (.running v) →
      u.calls.length < v.calls.length → Q u

section

variable {Q : State → Prop}

theorem Route.path (h : Route image Q depth k s t) : Path image depth k s t := by
  obtain ⟨n, hn, hk, hDepth, -⟩ := h
  exact ⟨n, hn, hk, hDepth⟩

theorem Path.route_true (h : Path image depth k s t) : Route image (fun _ => True) depth k s t := by
  obtain ⟨n, hn, hk, hDepth⟩ := h
  exact ⟨n, hn, hk, hDepth, fun _ _ _ _ _ _ _ => trivial⟩

/-- Where no call is made, nothing is asked of the states in between. -/
theorem Path.route (h : Path image depth 0 s t) : Route image Q depth 0 s t := by
  obtain ⟨n, hn, hNone, hDepth⟩ := h
  refine ⟨n, hn, hNone, hDepth, ?_⟩
  intro m hm u v hu hStep hCall
  obtain ⟨j, rfl⟩ := Nat.exists_eq_add_of_lt hm
  rw [Nat.add_assoc, callsMade_add hu, callsMade_succ hStep] at hNone
  omega

/-- One step is a route. It counts a call if it makes one. -/
theorem Route.single (h : step image s = .ok (.running t)) (hs : depth ≤ s.calls.length)
    (ht : depth ≤ t.calls.length) (hQ : s.calls.length < t.calls.length → Q s) :
    Route image Q depth (t.calls.length - s.calls.length) s t := by
  refine ⟨1, after_succ h 0, callsMade_succ h 0, ?_, ?_⟩
  · intro m hm u hu
    rcases Nat.le_one_iff_eq_zero_or_eq_one.mp hm with rfl | rfl
    · obtain rfl := Option.some.inj hu
      exact hs
    · rw [after_succ h 0] at hu
      obtain rfl := Option.some.inj hu
      exact ht
  · intro m hm u v hu hStep hCall
    obtain rfl := Nat.lt_one_iff.mp hm
    obtain rfl := Option.some.inj hu
    obtain ⟨rfl⟩ : t = v := by simpa [h] using hStep
    exact hQ hCall

/-- Routes compose, and their calls add up. -/
theorem Route.trans (h : Route image Q depth k s t) (h' : Route image Q depth j t u) :
    Route image Q depth (k + j) s u := by
  obtain ⟨m, hm, hk, hDepth, hQ⟩ := h
  obtain ⟨n, hn, hj, hDepth', hQ'⟩ := h'
  refine ⟨m + n, by rw [after_add hm, hn], by rw [callsMade_add hm, hk, hj], ?_, ?_⟩
  · intro i hi r hr
    rcases Nat.le_total i m with hle | hle
    · exact hDepth i hle r hr
    · obtain ⟨d, rfl⟩ := Nat.exists_eq_add_of_le hle
      rw [after_add hm] at hr
      exact hDepth' d (by omega) r hr
  · intro i hi r v hr
    rcases Nat.lt_or_ge i m with hlt | hle
    · exact hQ i hlt r v hr
    · obtain ⟨d, rfl⟩ := Nat.exists_eq_add_of_le hle
      rw [after_add hm] at hr
      exact hQ' d (by omega) r v hr

theorem Route.mono (h : Route image Q depth k s t) {depth' : Nat} (hDepth : depth' ≤ depth) :
    Route image Q depth' k s t := by
  obtain ⟨n, hn, hk, hAll, hQ⟩ := h
  exact ⟨n, hn, hk, fun m hm u hu => Nat.le_trans hDepth (hAll m hm u hu), hQ⟩

/-- A route to where the machine halts is the whole run. -/
theorem Route.of_halted (h : Route image Q depth k s t) (hHalts : step image t = .ok (.halted t))
    (hAfter : after image n s = some u) {v : State} (hStep : step image u = .ok (.running v))
    (hCall : u.calls.length < v.calls.length) : Q u := by
  obtain ⟨m, hm, -, -, hQ⟩ := h
  rcases Nat.lt_or_ge n m with hlt | hle
  · exact hQ n hlt u v hAfter hStep hCall
  · obtain ⟨d, rfl⟩ := Nat.exists_eq_add_of_le hle
    rw [after_add hm] at hAfter
    cases d with
    | zero =>
      obtain rfl := Option.some.inj hAfter
      rw [hHalts] at hStep
      cases hStep
    | succ d =>
      obtain ⟨r, hFirst, -⟩ := step_of_after hAfter
      rw [hHalts] at hFirst
      cases hFirst

end

theorem Path.refl (h : depth ≤ s.calls.length) : Path image depth 0 s s := by
  refine ⟨0, rfl, rfl, ?_⟩
  intro m hm u hu
  obtain rfl := Nat.le_zero.mp hm
  obtain rfl := Option.some.inj hu
  exact h

theorem Path.single (h : step image s = .ok (.running t)) (hs : depth ≤ s.calls.length)
    (ht : depth ≤ t.calls.length) :
    Path image depth (t.calls.length - s.calls.length) s t :=
  (Route.single (Q := fun _ => True) h hs ht fun _ => trivial).path

theorem Path.trans (h : Path image depth k s t) (h' : Path image depth j t u) :
    Path image depth (k + j) s u :=
  (h.route_true.trans h'.route_true).path

theorem Path.mono (h : Path image depth k s t) {depth' : Nat} (hDepth : depth' ≤ depth) :
    Path image depth' k s t :=
  (h.route_true.mono hDepth).path

/-- The machine gets from `o` to `s` and makes `k` calls on the way. -/
def Reached (image : Image) (o : State) (k : Nat) (s : State) : Prop :=
  ∃ n, after image n o = some s ∧ callsMade image n o = k

theorem Reached.path {o : State} (h : Reached image o k s) (hPath : Path image depth j s t) :
    Reached image o (k + j) t := by
  obtain ⟨m, hm, hk⟩ := h
  obtain ⟨n, hn, hj, -⟩ := hPath
  exact ⟨m + n, by rw [after_add hm, hn], by rw [callsMade_add hm, hk, hj]⟩

end Machine

/-! ### Lines in a row -/

open Machine

def Instr.isStraight : Instr → Bool
  | skipNe .. | jump _ | call _ | ret => false
  | set .. | copy .. | indexByte _ | index _ | save _ | load _ | decimal _ | glyph _ | addIndex _
  | add .. | addByte .. | sub .. | xor .. | or .. | cls | breakpoint | draw .. => true

def runLines (addr : Label → UInt16) : List Line → State → Option State
  | [], s => some s
  | .instr i _ :: rest, s =>
    if i.isStraight then
      match execute (i.op addr) s with
      | .ok (.running t) => runLines addr rest t
      | _ => none
    else none
  | .word :: _, _ => none
  | .blank :: rest, s | .remark _ :: rest, s | .label _ :: rest, s => runLines addr rest s

/-- A straight instruction leads to the next one and leaves the calls as they are. -/
theorem execute_straight {addr : Label → UInt16} {i : Instr} {s t : State}
    (h : i.isStraight = true) (hRun : execute (i.op addr) s = .ok (.running t)) :
    t.pc = s.pc + 2 ∧ t.calls = s.calls := by
  cases i with
  | skipNe x k | jump l | call l | ret => cases h
  | save x | load x | decimal x =>
    simp only [Instr.op, execute] at hRun
    split at hRun
    · cases hRun
      exact ⟨rfl, rfl⟩
    · cases hRun
  | _ =>
    cases hRun
    exact ⟨rfl, rfl⟩

theorem runLines_append {addr : Label → UInt16} {a b : List Line} {s t : State}
    (h : runLines addr a s = some t) : runLines addr (a ++ b) s = runLines addr b t := by
  induction a generalizing s with
  | nil =>
    obtain rfl := Option.some.inj h
    rfl
  | cons line a ih =>
    cases line with
    | blank | remark text | label l => exact ih h
    | word => simp [runLines] at h
    | instr i note =>
      simp only [runLines, List.cons_append] at h ⊢
      split at h
      · next hStraight =>
        rw [if_pos hStraight]
        split at h
        · simp only [ih h]
        · simp at h
      · simp at h

/-- Straight code runs on the machine as it does line by line, and ends behind its last line. -/
theorem runLines_path {lines rest frag : List Line} {image : Image} (hImage : Assembled lines image)
    {s t : State} (hs : At lines (frag ++ rest) s.pc) (h : runLines image.addr frag s = some t) :
    Path image s.calls.length 0 s t ∧ At lines rest t.pc ∧ t.calls = s.calls := by
  induction frag generalizing s with
  | nil =>
    obtain rfl := Option.some.inj h
    exact ⟨.refl (Nat.le_refl _), hs, rfl⟩
  | cons line frag ih =>
    cases line with
    | blank | remark text | label l => exact ih (At.pass rfl hs) h
    | word => simp [runLines] at h
    | instr i note =>
      simp only [runLines] at h
      split at h
      · next hStraight =>
        split at h
        · next r hr =>
          obtain ⟨hPc, hCalls⟩ := execute_straight hStraight hr
          have hNext : At lines (frag ++ rest) r.pc := hPc ▸ At.next rfl hs
          obtain ⟨hPath, hAt, hCalls'⟩ := ih hNext h
          have hStep := hImage.step_running hs hr
          have hFirst := Path.single hStep (Nat.le_refl _) (Nat.le_of_eq (by rw [hCalls]))
          rw [hCalls] at hPath
          refine ⟨?_, hAt, hCalls'.trans hCalls⟩
          simpa [hCalls] using hFirst.trans hPath
        · simp at h
      · simp at h

/-! ### Jumps, calls and returns -/

section

variable {lines rest : List Line} {image : Image} {note : Option String} {s : State}

/-- A label further down has another address. -/
theorem Assembled.addr_ne (h : Assembled lines image) {mid after : List Line} {i : Instr}
    {l : Label} {pc : UInt16} (hs : At lines (.instr i note :: (mid ++ .label l :: after)) pc) :
    image.addr l ≠ pc := by
  obtain ⟨pre, hLines, rfl⟩ := hs
  have hSplit : lines = (pre ++ .instr i note :: mid) ++ .label l :: after := by
    rw [hLines]
    simp
  have hFits := h.fits
  rw [hSplit, cellCount_append] at hFits
  rw [h.addr_eq hSplit]
  intro hEq
  have hNat := congrArg UInt16.toNat hEq
  rw [toNat_place, toNat_place] at hNat <;>
    simp only [cellAddress, cellCount_append, cellCount_cons, Line.cells] at hFits hNat ⊢ <;> omega

theorem Assembled.step_jump (h : Assembled lines image) {l : Label}
    (hs : At lines (.instr (.jump l) note :: rest) s.pc) (hNe : image.addr l ≠ s.pc) :
    step image s = .ok (.running { s with pc := image.addr l }) := by
  refine h.step_running hs ?_
  simp [Instr.op, execute, hNe]

/-- A jump to itself is the end. -/
theorem Assembled.step_halted (h : Assembled lines image) {l : Label}
    (hs : At lines (.instr (.jump l) note :: rest) s.pc) (hEq : image.addr l = s.pc) :
    step image s = .ok (.halted s) := by
  obtain ⟨statement, hStep⟩ := h.step_eq hs
  rw [hStep]
  simp only [Instr.op, execute, hEq, if_true]
  rfl

theorem Assembled.path_jump (h : Assembled lines image) {mid after : List Line} {l : Label}
    (hs : At lines (.instr (.jump l) note :: (mid ++ .label l :: after)) s.pc) :
    Path image s.calls.length 0 s { s with pc := image.addr l } ∧
      At lines after (image.addr l) := by
  have hStep := h.step_jump hs (h.addr_ne hs)
  refine ⟨by simpa using Path.single hStep (Nat.le_refl _) (Nat.le_refl _), ?_⟩
  obtain ⟨pre, hLines, -⟩ := hs
  refine h.at_label ⟨pre ++ .instr (.jump l) note :: mid, ?_⟩
  rw [hLines]
  simp

/-- A test that fails skips the instruction behind it, which is two bytes long. -/
theorem Assembled.step_skip (h : Assembled lines image) {x : Reg} {k : UInt8} {i : Instr}
    {note' : Option String}
    (hs : At lines (.instr (.skipNe x k) note :: .instr i note' :: rest) s.pc)
    (hReg : s.reg x ≠ k) :
    step image s = .ok (.running { s with pc := s.pc + 4 }) ∧ At lines rest (s.pc + 4) := by
  have hFar : At lines rest (s.pc + 4) := by
    have hNext := At.next rfl (At.next rfl hs)
    rwa [UInt16.add_assoc] at hNext
  have hSmall : s.pc.toNat + 4 < 0x10000 := by
    obtain ⟨pre, hLines, hPc⟩ := hs
    have hFits := h.fits
    rw [hLines, cellCount_append] at hFits
    simp only [cellAddress, cellCount_cons, Line.cells] at hFits
    rw [hPc, toNat_place] <;> simp only [cellAddress] <;> omega
  refine ⟨h.step_running hs ?_, hFar⟩
  unfold State.reg at hReg
  simp only [Instr.op, execute, State.skip, ne_eq, hReg, not_false_eq_true, decide_true, if_true,
    hSmall]

theorem Assembled.step_noSkip (h : Assembled lines image) {x : Reg} {k : UInt8}
    (hs : At lines (.instr (.skipNe x k) note :: rest) s.pc) (hReg : s.reg x = k) :
    step image s = .ok (.running s.next) := by
  refine h.step_running hs ?_
  unfold State.reg at hReg
  simp only [Instr.op, execute, State.skip, ne_eq, hReg, not_true_eq_false, decide_false,
    Bool.false_eq_true, if_false]

theorem Assembled.path_skip (h : Assembled lines image) {x : Reg} {k : UInt8} {i : Instr}
    {note' : Option String}
    (hs : At lines (.instr (.skipNe x k) note :: .instr i note' :: rest) s.pc)
    (hReg : s.reg x ≠ k) :
    Path image s.calls.length 0 s { s with pc := s.pc + 4 } ∧ At lines rest (s.pc + 4) := by
  obtain ⟨hStep, hAt⟩ := h.step_skip hs hReg
  exact ⟨by simpa using Path.single hStep (Nat.le_refl _) (Nat.le_refl _), hAt⟩

theorem Assembled.path_noSkip (h : Assembled lines image) {x : Reg} {k : UInt8}
    (hs : At lines (.instr (.skipNe x k) note :: rest) s.pc) (hReg : s.reg x = k) :
    Path image s.calls.length 0 s s.next ∧ At lines rest s.next.pc := by
  have hPath := Path.single (h.step_noSkip hs hReg) (Nat.le_refl _) (Nat.le_refl s.calls.length)
  exact ⟨by simpa [State.next] using hPath, At.next rfl hs⟩

/-- A call pushes the address behind it. -/
theorem Assembled.step_call (h : Assembled lines image) {l : Label}
    (hs : At lines (.instr (.call l) note :: rest) s.pc) :
    step image s =
      .ok (.running { s with pc := image.addr l, calls := (s.pc + 2) :: s.calls }) :=
  h.step_running hs rfl

theorem Assembled.step_ret (h : Assembled lines image) {back : UInt16} {calls : List UInt16}
    (hs : At lines (.instr .ret note :: rest) s.pc) (hCalls : s.calls = back :: calls) :
    step image s = .ok (.running { s with pc := back, calls := calls }) := by
  refine h.step_running hs ?_
  simp [Instr.op, execute, hCalls]

end

end ChipPascal
