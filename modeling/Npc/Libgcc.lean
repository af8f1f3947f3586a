import Npc.Divsi3
import Npc.IsaRefinement

/-! The routines of libgcc that stand for the M extension, on the ISA machine and on the core. -/

namespace Npc

open Rv32i ByteMemory

inductive Libgcc
  | mulsi3 | divsi3 | udivsi3 | umodsi3 | modsi3
  deriving DecidableEq, Repr

namespace Libgcc

def text : Libgcc → List Instr
  | .mulsi3 => Npc.mulsi3
  | _ => divS

def entry : Libgcc → Nat
  | .mulsi3 => 0
  | .divsi3 => 0
  | .udivsi3 => 2
  | .umodsi3 => 20
  | .modsi3 => 33

/-- The result of the instruction of the M extension the routine stands for. -/
def result (x y : Word) : Libgcc → Word
  | .mulsi3 => x * y
  | .divsi3 => divs x y
  | .udivsi3 => divu x y
  | .umodsi3 => x % y
  | .modsi3 => x.srem y

theorem run {code : Mem 32} {base : Word} {r : RegFile} {m : Mem 32} (f : Libgcc)
    (h : CodeAt code base f.text) (s : Scratch) (hra : 4 ∣ s.ra.toNat) :
    ∃ s' : Scratch, Reaches code ⟨codePc base f.entry, s.put r, m⟩ ⟨s.ra, s'.put r, m⟩ ∧
      s'.a0 = f.result s.a0 s.a1 := by
  cases f with
  | mulsi3 => exact mulsi3_run h s hra
  | divsi3 => exact divsi3_run h s hra
  | udivsi3 =>
    obtain ⟨x, y, hr⟩ := udivsi3_ret h s hra (r := r) (m := m)
    exact ⟨_, hr, rfl⟩
  | umodsi3 => exact umodsi3_run h s hra
  | modsi3 => exact modsi3_run h s hra

theorem returns {code : Mem 32} {base : Word} {r : RegFile} (m : Mem 32) (f : Libgcc)
    (h : CodeAt code base f.text) (hra : 4 ∣ (r 1#5).toNat) :
    Returns code (codePc base f.entry) r m (f.result (r 10#5) (r 11#5)) :=
  Scratch.returns (f.run h (.ofRegs r) hra)

end Libgcc

/-- The routines of `muldi3.S` and `div.S` compute what the instructions of the M extension do:
the low word of the product, quotients rounded towards zero and remainders of the sign of the
dividend, with -1 and the dividend for a zero divisor and no exception for the overflow. Each
returns, with its result in a0, the memory as it was and no register changed but ra, t0 and
a0 to a3. -/
theorem libgcc_correct {code : Mem 32} {base : Word} (f : Libgcc) (h : CodeAt code base f.text)
    (r : RegFile) (m : Mem 32) (hra : 4 ∣ (r 1#5).toNat) :
    Returns code (codePc base f.entry) r m (f.result (r 10#5) (r 11#5)) :=
  f.returns m h hra

/-- Registers with -7 and 2 for the operands and a return address. -/
def modsi3Regs : RegFile := ((RegFile.reset.set 1#5 0x80001000#32).set 10#5 (-7#32)).set 11#5 2#32

theorem libgcc_correct_modsi3 :
    Returns (image (divS.map Instr.encode)) (codePc 0x80000000#32 33) modsi3Regs (image []) (-1#32) :=
  libgcc_correct .modsi3 (codeAt_of_forall (by decide) (by decide +kernel)) modsi3Regs (image []) (by decide)

/-- A call of a routine on the core. When the ISA machine comes to the entry of the routine after
`m` instructions of a program, it goes on to the return address with the result in a0, and the core
commits all of this, whatever the cache does so long as hits recur, and holds its registers then. -/
theorem core_runs_libgcc (imem dmem : Pmem) (inp : Nat → CoreIn) (T : Nat → State) (m : Nat)
    (h0 : T 0 = .reset dmem) (ht : Trace imem T m) {base : Word} (f : Libgcc)
    (h : CodeAt imem base f.text) (hpc : (T m).pc = codePc base f.entry)
    (hra : 4 ∣ ((T m).regs 1#5).toNat) (hfair : ∀ n, ∃ k, n ≤ k ∧ (inp k).cacheHit = true) :
    ∃ (T' : Nat → State) (m' : Nat), m ≤ m' ∧ Trace imem T' m' ∧ (∀ k ≤ m, T' k = T k) ∧
      (T' m').pc = (T m).regs 1#5 ∧ (T' m').mem = (T m).mem ∧
      (T' m').regs 10#5 = f.result ((T m).regs 10#5) ((T m).regs 11#5) ∧
      (∀ a, a ∉ [1#5, 5#5, 10#5, 11#5, 12#5, 13#5] → (T' m').regs a = (T m).regs a) ∧
      ∃ n, (Core.commits imem dmem inp n).length = m' ∧
        ∀ a, readReg (Core.runFrom imem dmem inp n).regs a = (T' m').regs a := by
  obtain ⟨r', hr, ha0, hkeep⟩ := f.returns (T m).mem h hra
  rw [← hpc] at hr
  obtain ⟨T', m', hm, ht', hT, hend⟩ := ht.extend hr
  have h0' : T' 0 = .reset dmem := by rw [hT 0 (Nat.zero_le m), h0]
  have hcommits := Core.commits_trace h0' ht' hfair
  refine ⟨T', m', hm, ht', hT, ?_, ?_, ?_, ?_, hcommits⟩
  · rw [hend]
  · rw [hend]
  · rw [hend, ha0]
  · intro a ha
    rw [hend, hkeep a ha]

/-- A call of `__udivsi3` with 7 and 2. -/
def callUdivsi3 : List Instr := [.opImm .addi 10#5 0#5 7#12, .opImm .addi 11#5 0#5 2#12, .call (jumpTo 2 6)]

def callUdivsi3Image : Pmem := image (callUdivsi3.map Instr.encode ++ 0x00100073#32 :: divS.map Instr.encode)

def callUdivsi3Trace (k : Nat) : State :=
  (callUdivsi3.take k).foldl (fun s i => s.exec i) (.reset callUdivsi3Image)

theorem core_runs_libgcc_udivsi3 :
    ∃ (T' : Nat → State) (m' n : Nat), 3 ≤ m' ∧ Trace callUdivsi3Image T' m' ∧ (T' m').pc = 0x8000000c#32 ∧
      (Core.commits callUdivsi3Image callUdivsi3Image (fun _ => ⟨true, 0#32⟩) n).length = m' ∧
      readReg (Core.runFrom callUdivsi3Image callUdivsi3Image (fun _ => ⟨true, 0#32⟩) n).regs 10#5 = 3#32 := by
  have ht : Trace callUdivsi3Image callUdivsi3Trace 3 := by
    intro k hk
    have hj : ∀ t, (Instr.effect (callUdivsi3Trace 2).regs (callUdivsi3Trace 2).pc (.call (jumpTo 2 6))).jump =
        some t → 4 ∣ t.toNat := by
      intro t htt
      obtain rfl := Option.some.inj htt
      decide
    obtain rfl | rfl | rfl : k = 0 ∨ k = 1 ∨ k = 2 := by omega
    · exact ⟨.opImm .addi 10#5 0#5 7#12, ⟨by decide +kernel, by decide, trivial,
        ⟨nofun, nofun, nofun⟩⟩, rfl⟩
    · exact ⟨.opImm .addi 11#5 0#5 2#12, ⟨by decide +kernel, by decide, trivial,
        ⟨nofun, nofun, nofun⟩⟩, rfl⟩
    · exact ⟨.call (jumpTo 2 6), ⟨by decide +kernel, by decide, trivial, ⟨hj, nofun, nofun⟩⟩, rfl⟩
  have hcode : CodeAt callUdivsi3Image 0x80000010#32 divS := codeAt_of_forall (by decide) (by decide +kernel)
  obtain ⟨T', m', hm, ht', -, hpc, -, ha0, -, n, hn, hregs⟩ := core_runs_libgcc callUdivsi3Image
    callUdivsi3Image (fun _ => ⟨true, 0#32⟩) callUdivsi3Trace 3 rfl ht .udivsi3 hcode (by decide) (by decide)
    (fun n => ⟨n, le_refl n, rfl⟩)
  exact ⟨T', m', n, hm, ht', hpc, hn, (hregs 10#5).trans ha0⟩

end Npc
