/-
  File:      Xf100/Laws/Reset.lean
  Subject:   What a reset of the testbench leaves of the past.

  Under reset the registers and the counters are 0 and the word fetched is word 0 -- but it is
  executed, and the data RAM has no reset. If word 0 is taken for a store it stores zeros at
  its immediate in every reset edge, turning the word there each time. After two edges there
  is nothing left to be seen of that word, so the length of the reset does not matter from
  two edges on.

  * `reset_forgets` -- two testbenches with any past, reset for two edges or more each, behave
    alike for ever if their data RAMs did not differ in what can be seen;
  * `reset_keeps_iff` -- when a reset leaves the data RAM as it is.
-/
import Xf100.Laws.Observable
import Xf100.Laws.Simulation

namespace Xf100

open Rv32i

namespace Ram

/-! ## 1. Zeros stored twice -/

variable {aw : Nat}

/-- Zeros through the lowest lane, and through the highest or not: the word shows its highest byte
    at most. -/
theorem visible_high {i : RamIn aw} (h0 : i.ramMask.getLsbD 0 = true) (hd : i.ramWdat0 = 0#8)
    (v : BitVec 32) : (visible (wrWord i v)).2 = 0#4 := by
  show ((wrWord i v).extractLsb 31 24).extractLsb 3 0 = 0#4
  rw [(wrWord_bytes i v).1, h0, if_pos rfl, hd]
  rfl

/-- **Stored twice**, they leave nothing to be seen. -/
theorem visible_twice {i : RamIn aw} (h0 : i.ramMask.getLsbD 0 = true) (hd0 : i.ramWdat0 = 0#8)
    (hd3 : i.ramWdat3 = 0#8) (v : BitVec 32) : visible (wrWord i (wrWord i v)) = (0#4, 0#4) := by
  refine Prod.ext ?_ (visible_high h0 hd0 _)
  show ((wrWord i (wrWord i v)).extractLsb 7 0).extractLsb 3 0 = 0#4
  rw [(wrWord_bytes i (wrWord i v)).2.2.2]
  split
  · rw [hd3]
    rfl
  · exact visible_high h0 hd0 v

/-- The contents do not differ in what can be seen of them. -/
def Seen {dp : Nat} (m m' : RamMem dp) : Prop := ∀ k, visible (m k) = visible (m' k)

end Ram

namespace Core

/-! ## 2. The data RAM through reset edges -/

variable {w : BitVec 32} {m m' : RamMem dataRamDp}

/-- What a reset edge with the word `w` makes of the data RAM. -/
def resetRam (w : BitVec 32) (m : RamMem dataRamDp) : RamMem dataRamDp :=
  (step (reset m) (.twoState w 0#32)).memR

theorem resetRam_of_not_stOp (h : Decode.stOp w = false) : resetRam w m = m :=
  step_memR_of_not_stOp (c := .twoState w 0#32) h

/-- The index of a store under reset is its immediate. -/
def resetIdx (w : BitVec 32) : BitVec dataRamAw := (Decode.decImm w).extractLsb 15 0

theorem resetRam_past (h : Decode.stOp w = true) (hp : ¬ (resetIdx w).toNat < dataRamDp) :
    resetRam w m = m := by
  have hidx : ¬ (ramIdx (reset m) w).toNat < dataRamDp := by rw [ramIdx_reset]; exact hp
  exact congrArg Core.memR (step_store_past h hidx)

theorem resetRam_hit (h : Decode.stOp w = true) (hidx : (resetIdx w).toNat < dataRamDp) :
    resetRam w m = Function.update m ⟨(resetIdx w).toNat, hidx⟩
      (Ram.wrWord (ramIn (reset m) w) (m ⟨(resetIdx w).toNat, hidx⟩)) := by
  have hi : (ramIdx (reset m) w).toNat < dataRamDp := by rw [ramIdx_reset]; exact hidx
  have hk : (⟨_, hi⟩ : Fin dataRamDp) = ⟨(resetIdx w).toNat, hidx⟩ :=
    Fin.ext (congrArg BitVec.toNat (ramIdx_reset m w))
  have hstep := congrArg Core.memR (step_store_hit (x := 0#32) h hi)
  rw [hk] at hstep
  exact hstep

/-- A store of a register, under reset: zeros on all lanes, and the lowest one is taken. -/
theorem ramIn_reset_store (h : Decode.stOp w = true) : (ramIn (reset m) w).ramMask.getLsbD 0 = true ∧
    (ramIn (reset m) w).ramWdat0 = 0#8 ∧ (ramIn (reset m) w).ramWdat3 = 0#8 := by
  have hdat (lo : Nat) : (Exu.rfRs2 (reset m).rfR w).extractLsb' lo 8 = 0#8 := by
    rw [rfRs2_reset]
    exact BitVec.extractLsb'_zero
  obtain ⟨o, ho⟩ := (AsBuilt.isStore_iff w).mpr h
  have hmask : (ramIn (reset m) w).ramMask = if o = .sw then 0b1111#4 else 0b0001#4 :=
    Agu.ramMask_store (i := Exu.aguIn (reset m).rfR w) (AsBuilt.aguInfo_of_memTask ho)
  refine ⟨?_, hdat 0, hdat 24⟩
  rw [hmask]
  split <;> rfl

/-- Contents that do not differ in what can be seen do not after a reset edge. -/
theorem resetRam_seen (h : Ram.Seen m m') : Ram.Seen (resetRam w m) (resetRam w m') :=
  (indist_bisim.step_rel (reset m) (reset m') (.twoState w 0#32) ⟨rfl, h⟩).memR

/-- **A third reset edge is not seen.** -/
theorem resetRam_settles :
    Ram.Seen (resetRam w (resetRam w (resetRam w m))) (resetRam w (resetRam w m)) := by
  cases h : Decode.stOp w with
  | false =>
      rw [resetRam_of_not_stOp h, resetRam_of_not_stOp h]
      exact fun _ => rfl
  | true =>
      by_cases hidx : (resetIdx w).toNat < dataRamDp
      · intro k
        obtain ⟨h0, hd0, hd3⟩ := ramIn_reset_store (m := m) h
        by_cases hk : k = ⟨(resetIdx w).toNat, hidx⟩
        · subst hk
          rw [resetRam_hit h hidx, resetRam_hit h hidx, resetRam_hit h hidx]
          simp only [Function.update_self]
          -- the write port is the same in the three edges
          exact (Ram.visible_twice h0 hd0 hd3 (Ram.wrWord (ramIn (reset m) w) (m _))).trans
            (Ram.visible_twice h0 hd0 hd3 (m _)).symm
        · rw [resetRam_hit h hidx, Function.update_of_ne hk]
      · rw [resetRam_past h hidx, resetRam_past h hidx]
        exact fun _ => rfl

/-- And none of the later ones. -/
theorem resetRam_iterate (n : Nat) :
    Ram.Seen ((resetRam w)^[n + 2] m) (resetRam w (resetRam w m)) := by
  induction n with
  | zero => exact fun _ => rfl
  | succ n ih =>
      intro k
      rw [Function.iterate_succ_apply']
      exact (resetRam_seen ih k).trans (resetRam_settles k)

/-- **When a reset edge leaves every contents of the data RAM as they are.** -/
theorem resetRam_eq_iff : (∀ m, resetRam w m = m) ↔
    ¬ (Decode.stOp w = true ∧ ¬ (opcodeOf w = luiOpcode ∧ w.getLsbD 15 = true)) := by
  constructor
  · intro h hs
    exact store_changes hs.1 hs.2 (h _)
  · intro h m
    cases hs : Decode.stOp w with
    | false => exact resetRam_of_not_stOp hs
    | true =>
        refine resetRam_past hs fun hidx => h ⟨hs, ?_⟩
        exact (decImm_lt_iff hs).mp hidx

end Core

namespace Tb

/-! ## 3. The testbench -/

variable (mem : InstMem)

/-- A reset edge brings everything but the data RAM to a known state. -/
theorem step_resetEdge {t : Tb} (ht : t.finished = false) {c : TbCycle} (hc : c.sysRstN = false) :
    step mem t c =
      ⟨0#32, 0#32, Core.reset (Core.resetRam (wordAt mem 0) t.core.memR), false⟩ := by
  have hword : ifuInstr mem t c = wordAt mem 0 := by
    unfold ifuInstr ifuOInstr addrNow TbMemInit.addrNext
    rw [hc]
    exact TbMemInit.instr_wordAt mem c.instX (k := 0) (by decide)
  have hcore : Core.step t.core (coreCycle mem t c) =
      Core.reset (Core.resetRam (wordAt mem 0) t.core.memR) := by
    rw [← hword]
    exact Core.step_reset t.core hc 0#32
  unfold step
  rw [ht, hcore]
  simp only [cycleCntNow, addrNow, TbMemInit.addrNext, cycleCntNext, hc]
  rfl

/-- And so do more of them, one after the other. -/
theorem run_reset {t : Tb} (ht : t.finished = false) {r : List TbCycle}
    (hr : ∀ c ∈ r, c.sysRstN = false) (hne : r ≠ []) : Sync.run (step mem) t r =
      ⟨0#32, 0#32, Core.reset ((Core.resetRam (wordAt mem 0))^[r.length] t.core.memR), false⟩ := by
  induction r generalizing t with
  | nil => exact absurd rfl hne
  | cons c r ih =>
      rw [Sync.run_cons, step_resetEdge mem ht (hr c List.mem_cons_self)]
      cases r with
      | nil => rfl
      | cons d r =>
          exact ih rfl (fun e he => hr e (List.mem_cons_of_mem _ he)) (List.cons_ne_nil d r)

/-- **Testbenches no experiment tells apart**: the same position, and cores with the same future. -/
structure Alike (t t' : Tb) : Prop where
  addr : t.addr = t'.addr
  cycleCnt : t.cycleCnt = t'.cycleCnt
  finished : t.finished = t'.finished
  core : Core.Indist t.core t'.core

/-- What the testbench shows in a cycle: the two registers, `$finish`, and the nets between the
    modules of the core. -/
def nets (t : Tb) (c : TbCycle) : (BitVec 32 × BitVec 32 × Bool) × Core.Nets :=
  ((addrNow t c, cycleCntNow t c, t.finished), Core.nets t.core (coreCycle mem t c))

/-- They stay alike, whatever happens. -/
theorem alike_bisim : Sync.Bisim (step mem) (nets mem) Alike where
  out_eq t t' c h := by
    have haddr : addrNow t c = addrNow t' c := by unfold addrNow; rw [h.addr]
    have hcnt : cycleCntNow t c = cycleCntNow t' c := by unfold cycleCntNow; rw [h.cycleCnt]
    have hcycle : coreCycle mem t c = coreCycle mem t' c := by
      unfold coreCycle ifuInstr
      rw [haddr]
    unfold nets
    rw [haddr, hcnt, hcycle, h.finished, Core.nets_of_indist h.core]
  step_rel t t' c h := by
    have haddr : addrNow t c = addrNow t' c := by unfold addrNow; rw [h.addr]
    have hcnt : cycleCntNow t c = cycleCntNow t' c := by unfold cycleCntNow; rw [h.cycleCnt]
    have hcycle : coreCycle mem t c = coreCycle mem t' c := by
      unfold coreCycle ifuInstr
      rw [haddr]
    unfold step
    rw [h.finished, haddr, hcnt, hcycle]
    by_cases hfin : t'.finished = true
    · rw [if_pos hfin, if_pos hfin]
      exact h
    · rw [if_neg hfin, if_neg hfin]
      exact ⟨rfl, rfl, rfl, Core.indist_bisim.step_rel _ _ _ h.core⟩

/-- **A reset of two edges forgets the past.** Two running testbenches in any two states, each reset
    for two edges or more, show the same registers and nets between the modules in every cycle
    from then on, if their data RAMs did not differ in the visible bits: neither what the
    registers held nor the lengths of the resets nor the free values during them can be told. -/
theorem reset_forgets (t t' : Tb) (ht : t.finished = false) (ht' : t'.finished = false)
    (hm : ∀ k, Ram.visible (t.core.memR k) = Ram.visible (t'.core.memR k))
    (r r' : List TbCycle) (hr : ∀ c ∈ r, c.sysRstN = false) (hr' : ∀ c ∈ r', c.sysRstN = false)
    (hlen : 2 ≤ r.length) (hlen' : 2 ≤ r'.length) :
    Sync.ObsEq (step mem) (nets mem) (Sync.run (step mem) t r) (Sync.run (step mem) t' r') := by
  have hne {r : List TbCycle} (h : 2 ≤ r.length) : r ≠ [] := by
    intro e
    rw [e] at h
    exact absurd h (by decide)
  have hseen {r : List TbCycle} (h : 2 ≤ r.length) (m : RamMem dataRamDp) :
      Ram.Seen ((Core.resetRam (wordAt mem 0))^[r.length] m)
        (Core.resetRam (wordAt mem 0) (Core.resetRam (wordAt mem 0) m)) := by
    obtain ⟨n, hn⟩ := Nat.exists_eq_add_of_le' h
    rw [hn]
    exact Core.resetRam_iterate n
  refine (alike_bisim mem).obsEq ?_
  rw [run_reset mem ht hr (hne hlen), run_reset mem ht' hr' (hne hlen')]
  refine ⟨rfl, rfl, rfl, ⟨rfl, fun k => ?_⟩⟩
  calc Ram.visible ((Core.resetRam (wordAt mem 0))^[r.length] t.core.memR k)
      = Ram.visible (Core.resetRam (wordAt mem 0)
          (Core.resetRam (wordAt mem 0) t.core.memR) k) := hseen hlen _ k
    _ = Ram.visible (Core.resetRam (wordAt mem 0)
          (Core.resetRam (wordAt mem 0) t'.core.memR) k) :=
        Core.resetRam_seen (Core.resetRam_seen hm) k
    _ = Ram.visible ((Core.resetRam (wordAt mem 0))^[r'.length] t'.core.memR k) :=
        (hseen hlen' _ k).symm

/-- `sb x0, 1120(x0)` as word 0: a testbench at power-up reset for two edges, and one in the middle of
    its run reset for three. -/
theorem reset_forgets_sb : Sync.ObsEq
    (step (image [storeWord .sb 0#5 0#5 1120#12])) (nets (image [storeWord .sb 0#5 0#5 1120#12]))
    (Sync.run (step (image [storeWord .sb 0#5 0#5 1120#12]))
      ⟨BitVec.allOnes 32, BitVec.allOnes 32, ⟨fun _ => 7#32, fun _ => 0x01020304#32⟩, false⟩
      [⟨false, 1#32, 2#5, 3#32⟩, ⟨false, 4#32, 5#5, 6#32⟩])
    (Sync.run (step (image [storeWord .sb 0#5 0#5 1120#12]))
      ⟨8#32, 2#32, Core.reset fun _ => 0x01FFFF04#32, false⟩
      (List.replicate 3 ⟨false, 0#32, 0#5, 0#32⟩)) := by
  have hseen : Ram.visible 0x01020304#32 = Ram.visible 0x01FFFF04#32 := by decide
  exact reset_forgets _
    ⟨BitVec.allOnes 32, BitVec.allOnes 32, ⟨fun _ => 7#32, fun _ => 0x01020304#32⟩, false⟩
    ⟨8#32, 2#32, Core.reset fun _ => 0x01FFFF04#32, false⟩ rfl rfl (fun _ => hseen) _ _ (by simp)
    (by simp) (by decide) (by decide)

/-- **When a reset leaves the data RAM alone**: from every state and for every length, exactly if
    word 0 is not taken for a store, or for one past the data RAM. -/
theorem reset_keeps_iff : (∀ t : Tb, t.finished = false → ∀ r : List TbCycle,
      (∀ c ∈ r, c.sysRstN = false) → (Sync.run (step mem) t r).core.memR = t.core.memR) ↔
    ¬ (Decode.stOp (wordAt mem 0) = true ∧
      ¬ (opcodeOf (wordAt mem 0) = luiOpcode ∧ (wordAt mem 0).getLsbD 15 = true)) := by
  rw [← Core.resetRam_eq_iff]
  constructor
  · intro h m
    have hone := h ⟨0#32, 0#32, Core.reset m, false⟩ rfl [⟨false, 0#32, 0#5, 0#32⟩] (by simp)
    rwa [run_reset mem rfl (by simp) (by simp)] at hone
  · intro h t ht r hr
    cases r with
    | nil => rfl
    | cons c r =>
        rw [run_reset mem ht hr (List.cons_ne_nil c r)]
        exact Function.iterate_fixed (h _) _

end Tb

end Xf100
