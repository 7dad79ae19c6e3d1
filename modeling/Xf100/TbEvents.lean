/-
  File:      Xf100/TbEvents.lean
  Subject:   The testbench event by event: its `always` blocks, and the simulation time.

  One step of Tb.lean is one rising edge of `sys_clk`, the reset having settled before it. Here
  the two events the blocks are sensitive to stand apart, as in the source: a rising `sys_clk`,
  at which every block runs on the values stored before it, and a falling `sys_rst_n`, at which
  the blocks with a reset run. A rising `sys_rst_n` and a falling `sys_clk` start nothing. The
  times are those of the delays in `tb_top`; after `$finish` there are no events.
-/
import Xf100.Tb
import Xf100.Sync.Events

namespace Xf100

/-- A value for each net or byte the source leaves undefined. -/
structure TbFree where
  instX : BitVec 32
  aguWbckIdx : BitVec 5
  memX : BitVec 32

namespace Core

variable (s : Core) (c : Cycle)

/-! ## 1. The blocks of the core -/

/-- The connections of the data RAM, and what it and the write-back block answer. -/
def ramNets : RamIn dataRamAw := dataRamIn (Exu.aguRam s.rfR c.exuIInstr)

def wbckNets : WbckOut :=
  Exu.rfWbck s.rfR c.exuIInstr c.aguWbckIdx (xf100RamRead s.memR c.memX (ramNets s c))

/-- At a rising `clk`: the flip-flops and the write port of the data RAM. -/
def clkRise : Core where
  rfR := Regfile.rfEdge s.rfR c.rstN (wbckNets s c).wbckOWbckEn (wbckNets s c).wbckOWbckData
    (wbckNets s c).wbckOWbckRdidx
  memR := xf100RamWrite s.memR (ramNets s c)

/-- At a falling `rst_n`: the flip-flops, whatever their inputs; the data RAM has no such block. -/
def rstFall : Core where
  rfR := Regfile.rfSettled s.rfR false
  memR := s.memR

end Core

namespace Tb

variable (mem : InstMem)

/-! ## 2. The blocks of the testbench -/

/-- At a rising `sys_clk`. -/
def clkRise (sysRstN : Bool) (t : Tb) (u : TbFree) : Tb :=
  if t.finished then t
  else
    { addr := TbMemInit.addrNext sysRstN t.addr
      cycleCnt := cycleCntNext sysRstN t.cycleCnt
      core := t.core.clkRise
        ⟨ifuOInstr (TbMemInit.instr mem u.instX t.addr), sysRstN, u.aguWbckIdx, u.memX⟩
      finished := t.cycleCnt == 0x800#32 }

/-- At a falling `sys_rst_n`. -/
def rstFall (t : Tb) : Tb :=
  if t.finished then t
  else
    { addr := TbMemInit.addrNext false t.addr
      cycleCnt := cycleCntNext false t.cycleCnt
      core := t.core.rstFall
      finished := t.finished }

/-- **One event** of the testbench, with the value of `sys_rst_n` beside it. -/
def event : Bool × Tb → Sync.Event TbFree → Bool × Tb := Sync.eventStep (clkRise mem) rstFall

/-! ## 3. The time -/

/-- What happens at time `τ`, `free k` being the undefined values of the rising edge `k`: the reset
    goes low at 0 and up at 2000, and the clock rises. -/
def eventsAt (free : Nat → TbFree) (τ : Nat) : List (Sync.Event TbFree) :=
  (if τ = 0 then [.rst false] else [])
    ++ (if τ = 2000 then [.rst true] else [])
    ++ (if τ = sysClkRise (τ / 20) then [.clk (free (τ / 20))] else [])

/-- What has happened before time `τ`. -/
def history (free : Nat → TbFree) (τ : Nat) : List (Sync.Event TbFree) :=
  (List.range τ).flatMap (eventsAt free)

end Tb

end Xf100
