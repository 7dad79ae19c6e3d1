/-
  File:      Xf100/Core.lean
  Subject:   `xf100_core` as a state machine: the execution unit and the data RAM, clocked.

  The state is what is stored: the 32 flip-flops of the register file and `mem_r` of the
  data RAM. One step is one clock cycle: the nets settle on the cycle's inputs, then the
  rising edge loads both stores at once. The fetch unit has no instruction memory in the
  source; the instruction word is an input of the cycle.
-/
import Xf100.Exu
import Xf100.Sync.Machine

namespace Xf100

/-- The stored state of `xf100_core`. -/
structure Core where
  rfR : Regfile
  memR : RamMem dataRamDp

/-- What a cycle is fed: the instruction word, the reset, and a value for each net the source
    leaves undefined (the undriven index, the answer of a read past the data RAM). -/
structure Cycle where
  exuIInstr : BitVec 32
  rstN : Bool
  aguWbckIdx : BitVec 5
  memX : BitVec 32

/-- A cycle of the two-state model with the reset inactive: the undriven index is 0. -/
@[simps] def Cycle.twoState (w memX : BitVec 32) : Cycle where
  exuIInstr := w
  rstN := true
  aguWbckIdx := 0#5
  memX := memX

namespace Core

variable (s : Core) (c : Cycle)

/-! ## 1. One cycle -/

/-- The register file as the cycle reads it. -/
def rfNow : Regfile := Regfile.rfSettled s.rfR c.rstN

/-- The ports of `u_xf100_exu` to the data RAM. -/
def aguRam : AguRamOut := Exu.aguRam (rfNow s c) c.exuIInstr

/-- The connections of `u_xf100_data_ram`. -/
def dataRamIn (o : AguRamOut) : RamIn dataRamAw where
  ramCs := o.aguORamCs
  ramWen := o.aguORamWen
  ramMask := o.aguORamMask
  ramAddr := o.aguORamAddr
  ramWdat0 := o.aguORamWdat0
  ramWdat1 := o.aguORamWdat1
  ramWdat2 := o.aguORamWdat2
  ramWdat3 := o.aguORamWdat3

/-- `data_ram_rdat0` to `3`. -/
def dataRamRdat : RamOut := xf100RamRead s.memR c.memX (dataRamIn (aguRam s c))

/-- The write port of the register file. -/
def rfWbck : WbckOut := Exu.rfWbck (rfNow s c) c.exuIInstr c.aguWbckIdx (dataRamRdat s c)

/-- **One clock cycle.** -/
def step : Core where
  rfR := Regfile.rfEdge (rfNow s c) c.rstN (rfWbck s c).wbckOWbckEn (rfWbck s c).wbckOWbckData
    (rfWbck s c).wbckOWbckRdidx
  memR := xf100RamWrite s.memR (dataRamIn (aguRam s c))

/-! ## 2. Runs -/

/-- A cycle of the two-state model: an instruction word, and the answer a read past the data
    RAM would get in this cycle. -/
def stepWord (s : Core) (p : BitVec 32 × BitVec 32) : Core := step s (.twoState p.1 p.2)

/-- The core after a list of such cycles. -/
def runWords (s : Core) (ws : List (BitVec 32 × BitVec 32)) : Core := Sync.run stepWord s ws

@[simp] theorem runWords_nil (s : Core) : runWords s [] = s := rfl

@[simp] theorem runWords_cons (s : Core) (p : BitVec 32 × BitVec 32)
    (ws : List (BitVec 32 × BitVec 32)) :
    runWords s (p :: ws) = runWords (step s (.twoState p.1 p.2)) ws := rfl

/-- After a reset: every register 0, the data RAM holding anything. -/
def reset (memR : RamMem dataRamDp) : Core where
  rfR := fun _ => 0#32
  memR := memR

end Core

end Xf100
