/-
  File:      Xf100/Laws/Observable.lean
  Subject:   What of the stored state can ever be seen: eight bits of each RAM word.

  A load sees the four lowest bits of a word, a store puts the highest byte lowest, and no
  way leads from the two bytes between to either. So two cores whose registers agree, and
  whose RAM words agree in the lower half of the lowest and of the highest byte, drive the
  same nets between the modules for ever (`indist_bisim`). Nothing less will do: a program
  that counts up an address and loads, after a store that turns the word if need be, shows
  the eight bits in a register (`indist_of_programs`).

  * `indist_tfae` -- the three notions are one.
-/
import Mathlib.Data.List.TFAE
import Xf100.Laws.Safe
import Xf100.Sync.Observation

namespace Xf100

open Rv32i

namespace Ram

/-! ## 1. The bits of a word that can be seen -/

/-- The lower half of the lowest byte and of the highest. -/
def visible (v : BitVec 32) : BitVec 4 × BitVec 4 :=
  ((v.extractLsb 7 0).extractLsb 3 0, (v.extractLsb 31 24).extractLsb 3 0)

theorem visible_eq_iff {u v : BitVec 32} : visible u = visible v ↔
    (u.extractLsb 7 0).extractLsb 3 0 = (v.extractLsb 7 0).extractLsb 3 0 ∧
      (u.extractLsb 31 24).extractLsb 3 0 = (v.extractLsb 31 24).extractLsb 3 0 :=
  Prod.ext_iff

/-- The bits of a lower half. -/
theorem getLsbD_low (b : BitVec 8) {k : Nat} (hk : k < 4) :
    (b.extractLsb 3 0).getLsbD k = b.getLsbD k := by
  rw [BitVec.getLsbD_extractLsb]
  simp [-BitVec.getLsbD_eq_getElem, hk]

/-- A lane reads one of the four lowest bits. -/
theorem getLsbD_of_low {u v : BitVec 32}
    (h : (u.extractLsb 7 0).extractLsb 3 0 = (v.extractLsb 7 0).extractLsb 3 0) {k : Nat}
    (hk : k < 4) : u.getLsbD k = v.getLsbD k := by
  have hb (x : BitVec 32) : ((x.extractLsb 7 0).extractLsb 3 0).getLsbD k = x.getLsbD k := by
    rw [getLsbD_low _ hk, BitVec.getLsbD_extractLsb]
    simp [-BitVec.getLsbD_eq_getElem, show k < 8 by omega]
  rw [← hb u, ← hb v, h]

/-- And the four lowest bits are a lower half. -/
theorem low_of_getLsbD {u v : BitVec 32} (h : ∀ k, k < 4 → u.getLsbD k = v.getLsbD k) :
    (u.extractLsb 7 0).extractLsb 3 0 = (v.extractLsb 7 0).extractLsb 3 0 := by
  apply BitVec.eq_of_getLsbD_eq
  intro k hk
  have hk4 : k < 4 := hk
  rw [getLsbD_low _ hk4, getLsbD_low _ hk4, BitVec.getLsbD_extractLsb, BitVec.getLsbD_extractLsb,
    Nat.zero_add, h k hk4]

variable {aw dp : Nat}

/-- **A write mixes the visible bits of a word with nothing else of it.** -/
theorem visible_wrWord (i : RamIn aw) {u v : BitVec 32} (h : visible u = visible v) :
    visible (wrWord i u) = visible (wrWord i v) := by
  obtain ⟨hlow, hhigh⟩ := visible_eq_iff.mp h
  obtain ⟨htop, -, -, hbot⟩ := wrWord_bytes i u
  obtain ⟨htop', -, -, hbot'⟩ := wrWord_bytes i v
  rw [visible_eq_iff, htop, hbot, htop', hbot']
  constructor
  · split
    · rfl
    · exact hhigh
  · split
    · rfl
    · exact hlow

/-- Contents that agree in what can be seen keep doing so. -/
theorem visible_write {m m' : RamMem dp} (h : ∀ k, visible (m k) = visible (m' k))
    (i : RamIn aw) (k : Fin dp) :
    visible (xf100RamWrite m i k) = visible (xf100RamWrite m' i k) := by
  unfold xf100RamWrite
  split_ifs with hw hlt
  · by_cases hk : k = ⟨i.ramAddr.toNat, hlt⟩
    · subst hk
      rw [Function.update_self, Function.update_self]
      exact visible_wrWord i (h _)
    · rw [Function.update_of_ne hk, Function.update_of_ne hk]
      exact h k
  · exact h k
  · exact h k

/-- And answer every read alike. -/
theorem read_of_visible {m m' : RamMem dp} (h : ∀ k, visible (m k) = visible (m' k))
    (memX : BitVec 32) (i : RamIn aw) : xf100RamRead m memX i = xf100RamRead m' memX i := by
  have hat : visible (memAt m memX i.ramAddr) = visible (memAt m' memX i.ramAddr) := by
    by_cases hlt : i.ramAddr.toNat < dp
    · rw [memAt_of_lt _ _ hlt, memAt_of_lt _ _ hlt]
      exact h _
    · rw [memAt_of_ge _ _ hlt, memAt_of_ge _ _ hlt]
  have hbit (k : Nat) (hk : k < 4) : rdLane i (memAt m memX i.ramAddr) k =
      rdLane i (memAt m' memX i.ramAddr) k := by
    rw [rdLane_eq, rdLane_eq, getLsbD_of_low (visible_eq_iff.mp hat).1 hk]
  unfold xf100RamRead
  rw [hbit 0 (by decide), hbit 1 (by decide), hbit 2 (by decide), hbit 3 (by decide)]

end Ram

namespace Core

/-! ## 2. States that drive the same nets -/

/-- The nets between the modules in one cycle. What is inside `xf100_ram` is not among them:
    `tmp_ram_wdat` and `tmp_ram_rdat` carry the bits that cannot be seen too. -/
structure Nets where
  rfNow : Regfile
  aguRam : AguRamOut
  dataRamRdat : RamOut
  rfWbck : WbckOut

def nets (s : Core) (c : Cycle) : Nets where
  rfNow := rfNow s c
  aguRam := aguRam s c
  dataRamRdat := dataRamRdat s c
  rfWbck := rfWbck s c

/-- **The same registers, and RAM words that agree in what can be seen of them.** -/
structure Indist (s t : Core) : Prop where
  rfR : s.rfR = t.rfR
  memR : ∀ k, Ram.visible (s.memR k) = Ram.visible (t.memR k)

theorem nets_of_indist {s t : Core} (h : Indist s t) (c : Cycle) : nets s c = nets t c := by
  have hrf : rfNow s c = rfNow t c := congrArg (Regfile.rfSettled · c.rstN) h.rfR
  have hagu : aguRam s c = aguRam t c := congrArg (Exu.aguRam · c.exuIInstr) hrf
  have hrdat : dataRamRdat s c = dataRamRdat t c := by
    unfold dataRamRdat
    rw [hagu]
    exact Ram.read_of_visible h.memR _ _
  have hwbck : rfWbck s c = rfWbck t c := by
    unfold rfWbck
    rw [hrf, hrdat]
  unfold nets
  rw [hrf, hagu, hrdat, hwbck]

theorem Indist.symm {s t : Core} (h : Indist s t) : Indist t s :=
  ⟨h.rfR.symm, fun k => (h.memR k).symm⟩

theorem Indist.trans {s t u : Core} (h : Indist s t) (h' : Indist t u) : Indist s u :=
  ⟨h.rfR.trans h'.rfR, fun k => (h.memR k).trans (h'.memR k)⟩

/-- **Such states are bisimilar**: in every cycle, resets and free nets included. -/
theorem indist_bisim : Sync.Bisim step nets Indist where
  out_eq s t c h := nets_of_indist h c
  step_rel s t c h := by
    have hn := nets_of_indist h c
    have hrf : rfNow s c = rfNow t c := congrArg Nets.rfNow hn
    have hagu : aguRam s c = aguRam t c := congrArg Nets.aguRam hn
    have hwbck : rfWbck s c = rfWbck t c := congrArg Nets.rfWbck hn
    constructor
    case rfR =>
      unfold step
      rw [hrf, hwbck]
    case memR =>
      show ∀ k, Ram.visible (xf100RamWrite s.memR (dataRamIn (aguRam s c)) k) =
        Ram.visible (xf100RamWrite t.memR (dataRamIn (aguRam t c)) k)
      rw [hagu]
      exact Ram.visible_write h.memR _

/-! ## 3. Programs that look -/

section Programs

/-- `addi` off the AGU, in any state: x0 is read as 0 whatever entry 0 holds. -/
theorem step_addi {rd rs1 : BitVec 5} {imm : BitVec 12} (hd : rd ≠ 0#5)
    (hl : Decode.ldOp (Arith.opImm .addi rd rs1 imm).encode = false)
    (hs : Decode.stOp (Arith.opImm .addi rd rs1 imm).encode = false) (s : Core) (x : BitVec 32) :
    step s (.twoState (Arith.opImm .addi rd rs1 imm).encode x) =
      ⟨Function.update s.rfR rd.toFin
        ((if rs1 = 0#5 then 0#32 else s.rfR rs1.toFin) + imm.signExtend 32), s.memR⟩ := by
  have hrd : rdOf (Arith.opImm .addi rd rs1 imm).encode = rd := Arith.rdOf_encode _
  have hlui : opImmOpcode ≠ luiOpcode := by decide
  rw [step_alu hl hs (hrd.symm ▸ hd), hrd,
    Exu.aluData_form (Or.inr (Decode.isImm_encode .addi rd rs1 imm)), Decode.immEn_opImm,
    if_pos rfl, Decode.decImm_opImm, hs, if_neg (by decide), BitVec.or_zero, rfRs1_eq,
    Decode.rs1Of_opImm, Decode.opcodeOf_opImm]
  simp only [hlui, or_false]
  rfl

/-- `addi x1, x1, 1`. -/
def incr : BitVec 32 × BitVec 32 := ((Arith.opImm .addi 1#5 1#5 1#12).encode, 0#32)

/-- The program that leaves `a` in x1: `addi x1, x0, 0`, then `a` times `addi x1, x1, 1`. -/
def count (a : Nat) : List (BitVec 32 × BitVec 32) :=
  ((Arith.opImm .addi 1#5 0#5 0#12).encode, 0#32) :: List.replicate a incr

theorem runWords_incr (rf : Regfile) (m : RamMem dataRamDp) (a b : Nat) :
    runWords ⟨Function.update rf (1#5).toFin (BitVec.ofNat 32 b), m⟩ (List.replicate a incr) =
      ⟨Function.update rf (1#5).toFin (BitVec.ofNat 32 (b + a)), m⟩ := by
  induction a generalizing b with
  | zero => rfl
  | succ a ih =>
      rw [List.replicate_succ, runWords_cons]
      have hstep : step ⟨Function.update rf (1#5).toFin (BitVec.ofNat 32 b), m⟩
          (.twoState incr.1 incr.2) =
            ⟨Function.update rf (1#5).toFin (BitVec.ofNat 32 (b + 1)), m⟩ := by
        refine (step_addi (by decide) (by decide) (by decide) _ _).trans ?_
        rw [if_neg (by decide), BitVec.ofNat_add]
        simp only [Function.update_self, Function.update_idem]
        rfl
      rw [hstep, ih, Nat.add_right_comm, Nat.add_assoc]

theorem runWords_count (s : Core) (a : Nat) : runWords s (count a) =
    ⟨Function.update s.rfR (1#5).toFin (BitVec.ofNat 32 a), s.memR⟩ := by
  have hstep : step s (.twoState (Arith.opImm .addi 1#5 0#5 0#12).encode 0#32) =
      ⟨Function.update s.rfR (1#5).toFin (BitVec.ofNat 32 0), s.memR⟩ :=
    step_addi (by decide) (by decide) (by decide) s 0#32
  rw [count, runWords_cons, hstep, runWords_incr, Nat.zero_add]

theorem count_x1 (s : Core) (a : Nat) :
    (runWords s (count a)).rfR (1#5).toFin = BitVec.ofNat 32 a := by
  rw [runWords_count]
  simp only [Function.update_self]

theorem count_memR (s : Core) (a : Nat) : (runWords s (count a)).memR = s.memR := by
  rw [runWords_count]

theorem runWords_concat (s : Core) (ws : List (BitVec 32 × BitVec 32)) (w x : BitVec 32) :
    runWords s (ws ++ [(w, x)]) = step (runWords s ws) (.twoState w x) :=
  Sync.run_concat _ _ _

/-- The address of an AGU word at `x1`, in numbers. -/
theorem toNat_ramIdx {s : Core} {w : BitVec 32} {a b : Nat} (hrs1 : rs1Of w = 1#5)
    (hopc : opcodeOf w ≠ luiOpcode) (hx1 : s.rfR (1#5).toFin = BitVec.ofNat 32 a)
    (himm : Decode.decImm w = BitVec.ofNat 32 b) : (ramIdx s w).toNat = (a + b) % 65536 := by
  have h1 : Exu.rfRs1 s.rfR w = BitVec.ofNat 32 a := by
    rw [rfRs1_eq, hrs1, if_neg (by simp [hopc])]
    exact hx1
  rw [ramIdx_eq, h1, himm]
  simp only [BitVec.extractLsb_toNat, BitVec.toNat_add, BitVec.toNat_ofNat, Nat.reducePow,
    Nat.reduceSub, Nat.reduceAdd, Nat.shiftRight_zero]
  omega

/-- The word a load of `look` reads, and the word a store of `turn` turns. -/
def lookWord : BitVec 32 := loadWord .lw 2#5 1#5 96#12
def turnWord : BitVec 32 := storeWord .sb 1#5 1#5 1120#12

/-- The program that shows the four lowest bits of the word `k` in x2. -/
def look (k : Fin dataRamDp) : List (BitVec 32 × BitVec 32) :=
  count (k.val + 65440) ++ [(lookWord, 0#32)]

/-- The program that brings the highest byte of the word `k` lowest. -/
def turn (k : Fin dataRamDp) : List (BitVec 32 × BitVec 32) :=
  count (k.val + 64416) ++ [(turnWord, 0#32)]

theorem step_look {s : Core} {a : Nat} {k : Fin dataRamDp}
    (hx1 : s.rfR (1#5).toFin = BitVec.ofNat 32 a) (hk : (a + 96) % 65536 = k.val) :
    (step s (.twoState lookWord 0#32)).rfR (2#5).toFin =
      Agu.laneData (fun j => (s.memR k).getLsbD j) .lw := by
  have hidx : (ramIdx s lookWord).toNat = k.val :=
    (toNat_ramIdx (by decide) (by decide) hx1 (by decide +kernel)).trans hk
  have hlt : (ramIdx s lookWord).toNat < dataRamDp := hidx ▸ k.isLt
  have hm : Ram.memAt s.memR 0#32 (ramIdx s lookWord) = s.memR k := by
    rw [Ram.memAt_of_lt _ _ hlt]
    exact congrArg s.memR (Fin.ext hidx)
  have halu : Exu.aluData s.rfR lookWord = 0#32 := by
    rw [← AsBuilt.result_eq, AsBuilt.result, show AsBuilt.aluTask lookWord = none by decide]
    rfl
  have hrd : rdOf lookWord = 2#5 := by decide
  rw [step_load (by decide), halu, aguData_load (o := .lw) (by decide) (by decide), hm,
    BitVec.zero_or, hrd]
  simp only [Function.update_self]

theorem step_turn {s : Core} {a : Nat} {k : Fin dataRamDp}
    (hx1 : s.rfR (1#5).toFin = BitVec.ofNat 32 a) (hk : (a + 1120) % 65536 = k.val) :
    ((step s (.twoState turnWord 0#32)).memR k).extractLsb 7 0 = (s.memR k).extractLsb 31 24 := by
  have hidx : (ramIdx s turnWord).toNat = k.val :=
    (toNat_ramIdx (by decide) (by decide) hx1 (by decide +kernel)).trans hk
  have hlt : (ramIdx s turnWord).toNat < dataRamDp := hidx ▸ k.isLt
  have hkk : (⟨_, hlt⟩ : Fin dataRamDp) = k := Fin.ext hidx
  have hmask : (ramIn s turnWord).ramMask = if StoreOp.sb = .sw then 0b1111#4 else 0b0001#4 :=
    Agu.ramMask_store (i := Exu.aguIn s.rfR turnWord) (AsBuilt.aguInfo_of_memTask (by decide))
  have hlane : (ramIn s turnWord).ramMask.getLsbD 3 = false := by
    rw [hmask]
    decide
  rw [step_store_hit (by decide) hlt, hkk]
  simp only [Function.update_self]
  rw [(Ram.wrWord_bytes _ _).2.2.2, hlane, if_neg (by decide)]

theorem count_look (s : Core) {a : Nat} {k : Fin dataRamDp} (hk : (a + 96) % 65536 = k.val) :
    (runWords s (count a ++ [(lookWord, 0#32)])).rfR (2#5).toFin =
      Agu.laneData (fun j => (s.memR k).getLsbD j) .lw := by
  have hstep := step_look (count_x1 s a) hk
  rw [count_memR] at hstep
  rw [runWords_concat]
  exact hstep

theorem count_turn (s : Core) {a : Nat} {k : Fin dataRamDp} (hk : (a + 1120) % 65536 = k.val) :
    ((runWords s (count a ++ [(turnWord, 0#32)])).memR k).extractLsb 7 0 =
      (s.memR k).extractLsb 31 24 := by
  have hstep := step_turn (count_x1 s a) hk
  rw [count_memR] at hstep
  rw [runWords_concat]
  exact hstep

theorem runWords_look (s : Core) (k : Fin dataRamDp) :
    (runWords s (look k)).rfR (2#5).toFin =
      Agu.laneData (fun j => (s.memR k).getLsbD j) .lw := by
  have hk : k.val < 16384 := k.isLt
  have haddr : (k.val + 65440 + 96) % 65536 = k.val := by omega
  rw [look, count_look s haddr]

theorem runWords_turn (s : Core) (k : Fin dataRamDp) :
    ((runWords s (turn k)).memR k).extractLsb 7 0 = (s.memR k).extractLsb 31 24 := by
  have hk : k.val < 16384 := k.isLt
  have haddr : (k.val + 64416 + 1120) % 65536 = k.val := by omega
  rw [turn, count_turn s haddr]

end Programs

/-! ## 4. The three notions -/

/-- What a word load shows are the four lowest bits. -/
theorem low_of_laneData {u v : BitVec 32}
    (h : Agu.laneData (fun j => u.getLsbD j) .lw = Agu.laneData (fun j => v.getLsbD j) .lw) :
    (u.extractLsb 7 0).extractLsb 3 0 = (v.extractLsb 7 0).extractLsb 3 0 := by
  refine Ram.low_of_getLsbD fun k hk => ?_
  rw [Agu.laneData_eq (fun j => v.getLsbD j), Agu.laneData_eq_value_iff] at h
  exact (Agu.lane_inj.mp (h k hk)).symm

/-- **The programs see all of it**: cores that leave the same registers after every program are
    indistinguishable. -/
theorem indist_of_programs {s t : Core}
    (h : ∀ ws, (runWords s ws).rfR = (runWords t ws).rfR) : Indist s t where
  rfR := h []
  memR k := by
    have hlow := congrFun (h (look k)) (2#5).toFin
    have hhigh := congrFun (h (turn k ++ look k)) (2#5).toFin
    have happ (r : Core) : runWords r (turn k ++ look k) = runWords (runWords r (turn k)) (look k) :=
      Sync.run_append _ _ _
    rw [runWords_look, runWords_look] at hlow
    rw [happ, happ, runWords_look, runWords_look] at hhigh
    refine Ram.visible_eq_iff.mpr ⟨low_of_laneData hlow, ?_⟩
    rw [← runWords_turn, ← runWords_turn]
    exact low_of_laneData hhigh

theorem rfR_of_obsEq {s t : Core} (h : Sync.ObsEq step nets s t)
    (ws : List (BitVec 32 × BitVec 32)) : (runWords s ws).rfR = (runWords t ws).rfR := by
  have hn := h (ws.map fun p => .twoState p.1 p.2) (.twoState 0#32 0#32)
  rw [Sync.run_map, Sync.run_map] at hn
  exact congrArg Nets.rfNow hn

/-- **Full abstraction.** Two cores agree in their registers and the eight visible bits of every RAM
    word, if and only if they drive the same nets between the modules in every cycle of every
    run, if and only if they leave the same registers after every program. -/
theorem indist_tfae (s t : Core) : List.TFAE [Indist s t, Sync.ObsEq step nets s t,
    ∀ ws, (runWords s ws).rfR = (runWords t ws).rfR] := by
  tfae_have 1 → 2 := indist_bisim.obsEq
  tfae_have 2 → 3 := rfR_of_obsEq
  tfae_have 3 → 1 := indist_of_programs
  tfae_finish

end Core

end Xf100
