/-
  File:      Xf100/Tb.lean
  Subject:   The testbench: `tb_mem_init`, which drives the instruction of `xf100_ifu`, and
             `tb_top`, which clocks, resets and ends the simulation.

  The state is the address register of `tb_mem_init`, the cycle counter of `tb_top`, the core,
  and whether `$finish` has been called. One step is one rising edge of `sys_clk`; as in the
  core, `sys_rst_n` settles first. The edge that calls `$finish` is taken to clock every register
  too, in whatever order a simulator runs the blocks of that edge; after it there are no more.
  The instruction memory is what `$readmemh` left in it, a
  parameter; a byte past it is undefined, so the four bytes of such a fetch are free.

  `ifu_o_pc` has no driver and nothing reads it. The waveform dump is left out.
-/
import Xf100.Core

namespace Xf100

/-! ## 1. The fetch -/

/-- `INST_MEM_DP` -/
abbrev instMemDp : Nat := 16384

/-- `reg [7:0] mem [0:INST_MEM_DP-1]` -/
abbrev InstMem : Type := Fin instMemDp → BitVec 8

/-- `xf100_ifu`, `instr` being the net the testbench drives. -/
def ifuOInstr (instr : BitVec 32) : BitVec 32 := instr

namespace TbMemInit

/-- `mem[a]`; past the array the answer is `instX`. -/
def memAt (mem : InstMem) (instX : BitVec 8) (a : BitVec 32) : BitVec 8 :=
  if h : a.toNat < instMemDp then mem ⟨a.toNat, h⟩ else instX

/-- The four assignments to `IFU.instr`. -/
def instr (mem : InstMem) (instX : BitVec 32) (addr : BitVec 32) : BitVec 32 :=
  memAt mem (instX.extractLsb 31 24) (addr + 3#32)
    ++ memAt mem (instX.extractLsb 23 16) (addr + 2#32)
    ++ memAt mem (instX.extractLsb 15 8) (addr + 1#32)
    ++ memAt mem (instX.extractLsb 7 0) addr

/-- The body of the `always` block of `addr`: at a rising clock edge and at a falling reset. -/
def addrNext (sysRstN : Bool) (addr : BitVec 32) : BitVec 32 :=
  if sysRstN == false then 0#32 else addr + 4#32

end TbMemInit

/-! ## 2. The testbench -/

/-- What is stored, and whether the simulation has ended. -/
structure Tb where
  addr : BitVec 32
  cycleCnt : BitVec 32
  core : Core
  finished : Bool

/-- A rising clock edge: the reset, and a value for each net or byte the source leaves undefined. -/
structure TbCycle where
  sysRstN : Bool
  instX : BitVec 32
  aguWbckIdx : BitVec 5
  memX : BitVec 32

namespace Tb

/-- The body of the `always` block of `cycle_cnt`. -/
def cycleCntNext (sysRstN : Bool) (cycleCnt : BitVec 32) : BitVec 32 :=
  if sysRstN == false then 0#32 else cycleCnt + 1#32

variable (mem : InstMem) (t : Tb) (c : TbCycle)

/-- The two registers once `sys_rst_n` has settled. -/
def addrNow : BitVec 32 := if c.sysRstN then t.addr else TbMemInit.addrNext c.sysRstN t.addr
def cycleCntNow : BitVec 32 :=
  if c.sysRstN then t.cycleCnt else cycleCntNext c.sysRstN t.cycleCnt

/-- The instruction the core gets, and its cycle. -/
def ifuInstr : BitVec 32 := ifuOInstr (TbMemInit.instr mem c.instX (addrNow t c))

def coreCycle : Cycle where
  exuIInstr := ifuInstr mem t c
  rstN := c.sysRstN
  aguWbckIdx := c.aguWbckIdx
  memX := c.memX

/-- **One rising edge.** None follows the one that calls `$finish`, which clocks the registers as well. -/
def step : Tb :=
  if t.finished then t
  else
    { addr := TbMemInit.addrNext c.sysRstN (addrNow t c)
      cycleCnt := cycleCntNext c.sysRstN (cycleCntNow t c)
      core := Core.step t.core (coreCycle mem t c)
      finished := cycleCntNow t c == 0x800#32 }

/-! ## 3. The run of `tb_top` -/

/-- The time of the `k`-th rising edge, the clock starting low and toggling every 10. -/
def sysClkRise (k : Nat) : Nat := 10 + 20 * k

/-- The reset is released at time 2000. -/
def sysRstNAt (k : Nat) : Bool := decide (2000 ≤ sysClkRise k)

/-- The first `n` rising edges of the simulation in the two-state model: the undriven index is 0 in
    all of them, and `free k` gives what a fetch and a read past the memories get at edge `k`. -/
def edges (free : Nat → BitVec 32 × BitVec 32) (n : Nat) : List TbCycle :=
  (List.range n).map fun k => ⟨sysRstNAt k, (free k).1, 0#5, (free k).2⟩

end Tb

end Xf100
