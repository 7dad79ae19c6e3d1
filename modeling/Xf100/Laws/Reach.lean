/-
  File:      Xf100/Laws/Reach.lean
  Subject:   What programs can bring about: every state, as far as it can be seen.

  Doubling and adding 1 are safe instructions, so any constant can be put into a register; a
  byte store, done twice with the right bytes, leaves any visible bits in a word. With x0 at
  0 no state is out of reach: from outside, the core has no part that programs cannot set, as
  it has none they cannot read. No word of these programs is taken for a load, so it makes no
  difference what reads past the data RAM answer (`Leads`). As in every law about `runWords`,
  the undriven `agu_wbck_idx` carries 0 and the reset is inactive.

  * `execAll_loadRegs` -- safe instructions for any register contents;
  * `reach` -- words that lead from any state to any other, up to what can be seen;
  * `contexts_iff` -- two programs that no context tells apart, from every state;
  * `simulate_loadRegs` -- at most 2015 safe instructions, and the simulation ends with any
    register contents.
-/
import Xf100.Laws.Observable
import Xf100.Laws.Simulation

namespace Xf100

open Rv32i

namespace Core

/-! ## 1. Constants -/

/-- An immediate form whose immediate has no bit 5 leaves the AGU alone. -/
theorem safe_addi (rd rs1 : BitVec 5) {imm : BitVec 12}
    (h : (imm.signExtend 32).getLsbD 5 = false) : Safe (.opImm .addi rd rs1 imm) := by
  have hno : ¬ (Decode.TakenLoad (Arith.opImm .addi rd rs1 imm).encode ∨
      Decode.TakenStore (Arith.opImm .addi rd rs1 imm).encode) := by
    intro ht
    have h5 := Decode.iImm_bit5_of_taken ht
    rw [Decode.iImm_opImm, h] at h5
    cases h5
  exact Or.inl (not_or.mp hno)

/-- `v` into x`rd` by doubling and adding, from the top bit down: the first `n` bits. -/
def digits (rd : BitVec 5) (v : BitVec 32) : Nat → List Rv32i.Arith
  | 0 => [.opImm .addi rd 0#5 0#12]
  | n + 1 => digits rd v n ++ .op .add rd rd rd ::
      (if v.getLsbD (31 - n) then [.opImm .addi rd rd 1#12] else [])

section Digits

variable {rd : BitVec 5} (v : BitVec 32)

theorem length_digits (rd : BitVec 5) (n : Nat) : (digits rd v n).length ≤ 1 + 2 * n := by
  induction n with
  | zero => exact Nat.le_refl 1
  | succ n ih =>
      rw [digits, List.length_append, List.length_cons]
      split
      · rw [List.length_singleton]
        omega
      · rw [List.length_nil]
        omega

theorem safe_digits (hd : rd ≠ 0#5) (n : Nat) : ∀ i ∈ digits rd v n, Safe i := by
  induction n with
  | zero =>
      intro i hi
      rw [List.mem_singleton.mp hi]
      exact safe_addi _ _ (by decide)
  | succ n ih =>
      intro i hi
      rw [digits, List.mem_append, List.mem_cons] at hi
      rcases hi with hi | rfl | hi
      · exact ih i hi
      · exact Or.inr (Or.inl hd)
      · split at hi
        · rw [List.mem_singleton.mp hi]
          exact safe_addi _ _ (by decide)
        · cases hi

theorem execAll_append (r : Regs) (p q : List Rv32i.Arith) :
    execAll r (p ++ q) = execAll (execAll r p) q := Sync.run_append _ _ _

theorem set_set (r : Regs) (rd : BitVec 5) (a b : BitVec 32) :
    (r.set rd a).set rd b = r.set rd b := by
  apply Regs.ext
  funext k
  by_cases hk : k = rd ∧ rd ≠ 0#5
  · exact (if_pos hk).trans (if_pos hk).symm
  · exact (if_neg hk).trans ((if_neg hk).trans (if_neg hk).symm)

/-- **The bits read so far are in the register**, and nothing else has changed. -/
theorem execAll_digits (hd : rd ≠ 0#5) (r : Regs) {n : Nat} (hn : n ≤ 32) :
    execAll r (digits rd v n) = r.set rd (v >>> (32 - n)) := by
  induction n with
  | zero =>
      have hv : v >>> 32 = 0#32 := BitVec.ushiftRight_eq_zero (Nat.le_refl 32)
      have hx : r.x 0#5 + (0#12).signExtend 32 = 0#32 := by rw [r.x_zero]; rfl
      show r.set rd (r.x 0#5 + (0#12).signExtend 32) = r.set rd (v >>> 32)
      rw [hv, hx]
  | succ n ih =>
      have hsub : 32 - n = 31 - n + 1 := by omega
      have hsub' : 32 - (n + 1) = 31 - n := by omega
      have hdouble : execAll (r.set rd (v >>> (31 - n + 1))) [.op .add rd rd rd] =
          r.set rd (v >>> (31 - n + 1) + v >>> (31 - n + 1)) := by
        show (r.set rd _).set rd ((r.set rd _).x rd + (r.set rd _).x rd) = _
        rw [Regs.set_self _ hd, set_set]
      have hone (a : BitVec 32) : execAll (r.set rd a) [.opImm .addi rd rd 1#12] =
          r.set rd (a + 1#32) := by
        show (r.set rd a).set rd ((r.set rd a).x rd + (1#12).signExtend 32) = _
        rw [Regs.set_self _ hd, set_set]
        rfl
      rw [digits, execAll_append, ih (by omega), hsub, hsub', ← List.singleton_append,
        execAll_append, hdouble, Sync.ushiftRight_double v (31 - n)]
      split
      · exact hone _
      · rw [BitVec.add_zero]
        rfl

end Digits

/-! ## 2. The registers -/

/-- The registers x1 to x`n` of `r`. -/
def loadRegs (r : Regs) : Nat → List Rv32i.Arith
  | 0 => []
  | n + 1 => loadRegs r n ++ digits (BitVec.ofNat 5 (n + 1)) (r.x (BitVec.ofNat 5 (n + 1))) 32

theorem ofNat_ne_zero {n : Nat} (hn : n < 31) : BitVec.ofNat 5 (n + 1) ≠ 0#5 := by
  intro e
  have hv := congrArg BitVec.toNat e
  rw [BitVec.toNat_ofNat, Nat.mod_eq_of_lt (by omega)] at hv
  exact absurd hv (Nat.succ_ne_zero n)

theorem length_loadRegs (r : Regs) (n : Nat) : (loadRegs r n).length ≤ 65 * n := by
  induction n with
  | zero => exact Nat.le_refl 0
  | succ n ih =>
      have hd := length_digits (r.x (BitVec.ofNat 5 (n + 1))) (BitVec.ofNat 5 (n + 1)) 32
      rw [loadRegs, List.length_append]
      omega

theorem safe_loadRegs (r : Regs) {n : Nat} (hn : n ≤ 31) : ∀ i ∈ loadRegs r n, Safe i := by
  induction n with
  | zero =>
      intro i hi
      cases hi
  | succ n ih =>
      intro i hi
      rcases List.mem_append.mp hi with hi | hi
      · exact ih (by omega) i hi
      · exact safe_digits _ (ofNat_ne_zero (by omega)) 32 i hi

theorem loadRegs_x (r r₀ : Regs) {n : Nat} (hn : n ≤ 31) (k : BitVec 5) :
    (execAll r₀ (loadRegs r n)).x k = if k.toNat ≤ n then r.x k else r₀.x k := by
  induction n with
  | zero =>
      by_cases hk : k.toNat ≤ 0
      · obtain rfl : k = 0#5 := BitVec.eq_of_toNat_eq (Nat.le_zero.mp hk)
        exact r₀.x_zero.trans r.x_zero.symm
      · rw [if_neg hk]
        rfl
  | succ n ih =>
      have hd := ofNat_ne_zero (n := n) (by omega)
      have hnat : (BitVec.ofNat 5 (n + 1)).toNat = n + 1 := by
        rw [BitVec.toNat_ofNat]
        exact Nat.mod_eq_of_lt (by omega)
      rw [loadRegs, execAll_append, execAll_digits _ hd _ (Nat.le_refl 32), Nat.sub_self,
        BitVec.ushiftRight_zero]
      by_cases hk : k = BitVec.ofNat 5 (n + 1)
      · subst hk
        rw [Regs.set_self _ hd, if_pos (Nat.le_of_eq hnat)]
      · have hne : k.toNat ≠ n + 1 := fun e => hk (BitVec.eq_of_toNat_eq (e.trans hnat.symm))
        have hiff : k.toNat ≤ n ↔ k.toNat ≤ n + 1 := by omega
        rw [Regs.set_of_ne _ hk, ih (by omega)]
        simp only [hiff]

/-- **Any register contents**, from any other. -/
theorem execAll_loadRegs (r r₀ : Regs) : execAll r₀ (loadRegs r 31) = r := by
  apply Regs.ext
  funext k
  have hk : k.toNat < 32 := k.isLt
  rw [loadRegs_x r r₀ (Nat.le_refl 31), if_pos (by omega)]

/-- The registers of a state and its RAM are the state. -/
theorem shows_ext {m : RamMem dataRamDp} {s t : Core} {r : Regs} (hs : Shows m s r)
    (ht : Shows m t r) : s = t := by
  obtain ⟨rf, memR⟩ := s
  obtain ⟨rf', memR'⟩ := t
  have hrf : rf = rf' := funext fun k => (hs.1 (BitVec.ofFin k)).trans (ht.1 (BitVec.ofFin k)).symm
  have hm : memR = memR' := hs.2.trans ht.2.symm
  rw [hrf, hm]

/-! ## 3. Words that need no answers -/

/-- The words lead from `s` to `t`, whatever the reads past the data RAM answer. -/
def Leads (s : Core) (ws : List (BitVec 32)) (t : Core) : Prop :=
  ∀ ps : List (BitVec 32 × BitVec 32), ps.map Prod.fst = ws → runWords s ps = t

theorem runWords_append (s : Core) (ps qs : List (BitVec 32 × BitVec 32)) :
    runWords s (ps ++ qs) = runWords (runWords s ps) qs := Sync.run_append _ _ _

theorem Leads.append {s t u : Core} {ws vs : List (BitVec 32)} (h : Leads s ws t)
    (h' : Leads t vs u) : Leads s (ws ++ vs) u := by
  intro ps hps
  obtain ⟨ps₁, ps₂, rfl, h₁, h₂⟩ := List.map_eq_append_iff.mp hps
  rw [runWords_append, h ps₁ h₁]
  exact h' ps₂ h₂

theorem Leads.concat {s t u : Core} {ws : List (BitVec 32)} {w : BitVec 32} (h : Leads s ws t)
    (h' : ∀ x, step t (.twoState w x) = u) : Leads s (ws ++ [w]) u := by
  refine h.append fun ps hps => ?_
  obtain ⟨⟨v, x⟩, rfl, hv⟩ := List.map_eq_singleton_iff.mp hps
  have hvw : v = w := hv
  rw [hvw]
  exact h' x

/-- Words with answers that are a program's words are the program with answers. -/
theorem exists_words {p : List Rv32i.Arith} {ps : List (BitVec 32 × BitVec 32)}
    (hps : ps.map Prod.fst = p.map Arith.encode) :
    ∃ q : List (Rv32i.Arith × BitVec 32), words q = ps ∧ q.map Prod.fst = p := by
  have hlen : p.length ≤ (ps.map Prod.snd).length := by
    rw [List.length_map, ← List.length_map Prod.fst, hps, List.length_map]
  refine ⟨p.zip (ps.map Prod.snd), ?_, List.map_fst_zip hlen⟩
  calc words (p.zip (ps.map Prod.snd))
      = (p.map Arith.encode).zip (ps.map Prod.snd) := List.zip_map_left.symm
    _ = (ps.map Prod.fst).zip (ps.map Prod.snd) := by rw [hps]
    _ = ps := (List.zip_of_prod rfl rfl).symm

/-- **A safe program needs none.** -/
theorem shows_program {m : RamMem dataRamDp} {t : Core} {r : Regs} (h : Shows m t r)
    {p : List Rv32i.Arith} (hp : ∀ i ∈ p, Safe i) {ps : List (BitVec 32 × BitVec 32)}
    (hps : ps.map Prod.fst = p.map Arith.encode) : Shows m (runWords t ps) (execAll r p) := by
  obtain ⟨q, rfl, rfl⟩ := exists_words hps
  exact shows_run h fun i hi => hp i.1 (List.mem_map_of_mem hi)

/-- **A constant into a register.** -/
theorem leads_digits {s : Core} (h0 : s.rfR 0 = 0#32) {rd : BitVec 5} (hd : rd ≠ 0#5)
    (v : BitVec 32) : Leads s ((digits rd v 32).map Arith.encode)
      ⟨Function.update s.rfR rd.toFin v, s.memR⟩ := by
  intro ps hps
  have hrun := shows_program (r := s.regs h0) ⟨fun _ => rfl, rfl⟩ (safe_digits v hd 32) hps
  rw [execAll_digits v hd _ (Nat.le_refl 32), Nat.sub_self, BitVec.ushiftRight_zero] at hrun
  refine shows_ext hrun ⟨fun k => (update_toFin s.rfR k rd v).trans ?_, rfl⟩
  by_cases hk : k = rd
  · exact (if_pos hk).trans (if_pos ⟨hk, hd⟩).symm
  · exact (if_neg hk).trans (if_neg fun e => hk e.1).symm

/-! ## 4. The data RAM -/

/-- `sb x2, 1120(x1)`. -/
def putWord : BitVec 32 := storeWord .sb 1#5 2#5 1120#12

/-- x1 makes `putWord` go to the word `k`, and x0 is 0. -/
structure Points (rf : Regfile) (k : Fin dataRamDp) : Prop where
  x0 : rf 0 = 0#32
  x1 : rf (1#5).toFin = BitVec.ofNat 32 (k.val + 64416)

/-- **What a byte store leaves to be seen**: the byte, and what was seen of the highest. -/
theorem step_put {s : Core} {k : Fin dataRamDp} (h : Points s.rfR k) :
    ∃ v, (∀ x, step s (.twoState putWord x) = ⟨s.rfR, Function.update s.memR k v⟩) ∧
      Ram.visible v = ((Ram.visible (s.memR k)).2,
        ((s.rfR (2#5).toFin).extractLsb 7 0).extractLsb 3 0) := by
  have hk : (k.val + 64416 + 1120) % 65536 = k.val := by
    have hlt : k.val < 16384 := k.isLt
    omega
  have hidx : (ramIdx s putWord).toNat = k.val :=
    (toNat_ramIdx (by decide) (by decide) h.x1 (by decide +kernel)).trans hk
  have hlt : (ramIdx s putWord).toNat < dataRamDp := hidx ▸ k.isLt
  have hkk : (⟨_, hlt⟩ : Fin dataRamDp) = k := Fin.ext hidx
  have hmask : (ramIn s putWord).ramMask = if StoreOp.sb = .sw then 0b1111#4 else 0b0001#4 :=
    Agu.ramMask_store (i := Exu.aguIn s.rfR putWord) (AsBuilt.aguInfo_of_memTask (by decide))
  have h0 : (ramIn s putWord).ramMask.getLsbD 0 = true := by rw [hmask]; rfl
  have h3 : (ramIn s putWord).ramMask.getLsbD 3 = false := by rw [hmask]; rfl
  have hdat : (ramIn s putWord).ramWdat0 = (s.rfR (2#5).toFin).extractLsb 7 0 := by
    have hrs2 : Exu.rfRs2 s.rfR putWord = s.rfR (2#5).toFin := by
      rw [rfRs2_eq, show Decode.rs2En putWord = true by decide, if_pos rfl]
      rfl
    show (Exu.rfRs2 s.rfR putWord).extractLsb 7 0 = _
    rw [hrs2]
  obtain ⟨htop, -, -, hbot⟩ := Ram.wrWord_bytes (ramIn s putWord) (s.memR k)
  rw [h0, if_pos rfl, hdat] at htop
  rw [h3, if_neg Bool.false_ne_true] at hbot
  refine ⟨Ram.wrWord (ramIn s putWord) (s.memR k), fun x => ?_, ?_⟩
  · rw [step_store_hit (by decide) hlt, hkk]
  · unfold Ram.visible
    rw [htop, hbot]

/-- Puts the lower half of a byte into the highest byte of the word x1 points to. -/
def put (b : BitVec 4) : List (BitVec 32) :=
  (digits 2#5 (b.setWidth 32) 32).map Arith.encode ++ [putWord]

theorem leads_put {s : Core} {k : Fin dataRamDp} (h : Points s.rfR k) (b : BitVec 4) :
    ∃ rf v, Leads s (put b) ⟨rf, Function.update s.memR k v⟩ ∧ Points rf k ∧
      Ram.visible v = ((Ram.visible (s.memR k)).2, b) := by
  have hb : ∀ b : BitVec 4,
      ((b.setWidth 32 : BitVec 32).extractLsb 7 0).extractLsb 3 0 = b := by decide
  have hp : Points (Function.update s.rfR (2#5).toFin (b.setWidth 32)) k :=
    ⟨(Function.update_of_ne (by decide) _ _).trans h.x0,
      (Function.update_of_ne (by decide) _ _).trans h.x1⟩
  obtain ⟨v, hstep, hv⟩ := step_put
    (s := ⟨Function.update s.rfR (2#5).toFin (b.setWidth 32), s.memR⟩) hp
  simp only [Function.update_self] at hv
  rw [hb] at hv
  exact ⟨_, v, (leads_digits h.x0 (by decide) _).concat hstep, hp, hv⟩

/-- The words that leave the visible bits `p` in the word `k`. -/
def setWord (k : Fin dataRamDp) (p : BitVec 4 × BitVec 4) : List (BitVec 32) :=
  (digits 1#5 (BitVec.ofNat 32 (k.val + 64416)) 32).map Arith.encode ++ (put p.1 ++ put p.2)

/-- **Any visible bits into a word**, the others as they were. -/
theorem leads_setWord {s : Core} (h0 : s.rfR 0 = 0#32) (k : Fin dataRamDp)
    (p : BitVec 4 × BitVec 4) : ∃ rf v,
      Leads s (setWord k p) ⟨rf, Function.update s.memR k v⟩ ∧ rf 0 = 0#32 ∧
        Ram.visible v = p := by
  have hp : Points (Function.update s.rfR (1#5).toFin (BitVec.ofNat 32 (k.val + 64416))) k :=
    ⟨(Function.update_of_ne (by decide) _ _).trans h0, Function.update_self _ _ _⟩
  obtain ⟨rf, u, hu, hrf, hseen⟩ := leads_put
    (s := ⟨Function.update s.rfR (1#5).toFin (BitVec.ofNat 32 (k.val + 64416)), s.memR⟩) hp p.1
  obtain ⟨rf', v, hv, hrf', hseen'⟩ :=
    leads_put (s := ⟨rf, Function.update s.memR k u⟩) hrf p.2
  simp only [Function.update_self, Function.update_idem] at hv hseen'
  rw [hseen] at hseen'
  exact ⟨rf', v, (leads_digits h0 (by decide) _).append (hu.append hv), hrf'.x0, hseen'⟩

/-- The words for the first `n` words of `m`. -/
def setRam (m : RamMem dataRamDp) : Nat → List (BitVec 32)
  | 0 => []
  | n + 1 => setRam m n ++ if h : n < dataRamDp then setWord ⟨n, h⟩ (Ram.visible (m ⟨n, h⟩)) else []

/-- **Any visible contents.** -/
theorem leads_setRam {s : Core} (h0 : s.rfR 0 = 0#32) (m : RamMem dataRamDp) (n : Nat) :
    ∃ t, Leads s (setRam m n) t ∧ t.rfR 0 = 0#32 ∧
      ∀ k : Fin dataRamDp, k.val < n → Ram.visible (t.memR k) = Ram.visible (m k) := by
  induction n with
  | zero =>
      refine ⟨s, fun ps hps => ?_, h0, fun k hk => absurd hk (Nat.not_lt_zero _)⟩
      rw [List.map_eq_nil_iff.mp hps]
      rfl
  | succ n ih =>
      obtain ⟨t, ht, h0t, hm⟩ := ih
      rw [setRam]
      by_cases hn : n < dataRamDp
      · obtain ⟨rf, v, hrun, hrf, hv⟩ := leads_setWord h0t ⟨n, hn⟩ (Ram.visible (m ⟨n, hn⟩))
        rw [dif_pos hn]
        refine ⟨_, ht.append hrun, hrf, fun k hk => ?_⟩
        by_cases hkn : k = ⟨n, hn⟩
        · subst hkn
          simp only [Function.update_self]
          exact hv
        · have hlt : k.val < n :=
            lt_of_le_of_ne (Nat.le_of_lt_succ hk) fun e => hkn (Fin.ext e)
          simp only [Function.update_of_ne hkn]
          exact hm k hlt
      · rw [dif_neg hn, List.append_nil]
        exact ⟨t, ht, h0t, fun k _ => hm k (lt_of_lt_of_le k.isLt (not_lt.mp hn))⟩

theorem exists_setRam {s : Core} (h0 : s.rfR 0 = 0#32) (m : RamMem dataRamDp) {n : Nat}
    (hn : ∀ k : Fin dataRamDp, k.val < n) : ∃ ws t, Leads s ws t ∧ t.rfR 0 = 0#32 ∧
      ∀ k, Ram.visible (t.memR k) = Ram.visible (m k) := by
  obtain ⟨t, ht, h0t, hm⟩ := leads_setRam h0 m n
  exact ⟨setRam m n, t, ht, h0t, fun k => hm k (hn k)⟩

/-! ## 5. Every state -/

theorem exists_indist {s t : Core} (hs : s.rfR 0 = 0#32) (ht : t.rfR 0 = 0#32) :
    ∃ ws u, Leads s ws u ∧ Indist u t := by
  obtain ⟨ws, v, hv, h0, hm⟩ := exists_setRam hs t.memR Fin.isLt
  obtain ⟨p, hp, hexec⟩ : ∃ p, (∀ i ∈ p, Safe i) ∧ ∀ r₀, execAll r₀ p = t.regs ht :=
    ⟨_, safe_loadRegs (t.regs ht) (Nat.le_refl 31), execAll_loadRegs (t.regs ht)⟩
  have hlast : Leads v (p.map Arith.encode) ⟨t.rfR, v.memR⟩ := by
    intro ps hps
    have hrun := shows_program (r := v.regs h0) ⟨fun _ => rfl, rfl⟩ hp hps
    rw [hexec] at hrun
    exact shows_ext hrun ⟨fun _ => rfl, rfl⟩
  exact ⟨ws ++ p.map Arith.encode, _, hv.append hlast, rfl, hm⟩

/-- **From everywhere to everywhere.** With x0 at 0 in both, there is a list of words that brings the
    core from any state to one that no experiment tells from the other, whatever reads past the
    data RAM answer. -/
theorem reach (s t : Core) (hs : s.rfR 0 = 0#32) (ht : t.rfR 0 = 0#32) :
    ∃ ws : List (BitVec 32), ∀ ps : List (BitVec 32 × BitVec 32), ps.map Prod.fst = ws →
      Sync.ObsEq step nets (runWords s ps) t := by
  obtain ⟨ws, u, hu, h⟩ := exists_indist hs ht
  refine ⟨ws, fun ps hps => ?_⟩
  rw [hu ps hps]
  exact indist_bisim.obsEq h

/-- From a reset to ones in every register but x0 and every word, and back. -/
theorem reach_allOnes :
    (∃ ws : List (BitVec 32), ∀ ps : List (BitVec 32 × BitVec 32), ps.map Prod.fst = ws →
      Sync.ObsEq step nets (runWords (reset fun _ => 0#32) ps) (only 0#5 0#32 0xFFFFFFFF#32)) ∧
    ∃ ws : List (BitVec 32), ∀ ps : List (BitVec 32 × BitVec 32), ps.map Prod.fst = ws →
      Sync.ObsEq step nets (runWords (only 0#5 0#32 0xFFFFFFFF#32) ps) (reset fun _ => 0#32) :=
  ⟨reach _ _ rfl rfl, reach _ _ rfl rfl⟩

/-! ## 6. Programs in contexts -/

theorem runWords_indist {s t : Core} (h : Indist s t) (ws : List (BitVec 32 × BitVec 32)) :
    Indist (runWords s ws) (runWords t ws) := by
  have hrun := indist_bisim.run h (ws.map fun p => .twoState p.1 p.2)
  rwa [Sync.run_map, Sync.run_map] at hrun

/-- **What contexts see of a program.** Two lists of words leave the same registers in every context
    that starts from a reset over `m` and reaches them with x0 at 0, if and only if from every
    state with x0 at 0 they lead to states that no experiment tells apart. -/
theorem contexts_iff (m : RamMem dataRamDp) (p q : List (BitVec 32 × BitVec 32)) :
    (∀ pre post, (runWords (reset m) pre).rfR 0 = 0#32 →
      (runWords (reset m) (pre ++ p ++ post)).rfR = (runWords (reset m) (pre ++ q ++ post)).rfR) ↔
    ∀ s : Core, s.rfR 0 = 0#32 → Sync.ObsEq step nets (runWords s p) (runWords s q) := by
  constructor
  · intro h s hs
    obtain ⟨ws, u, hu, hus⟩ := exists_indist (s := reset m) rfl hs
    obtain ⟨pre, hpre⟩ : ∃ pre, Indist (runWords (reset m) pre) s := by
      refine ⟨ws.map (·, 0#32), ?_⟩
      rw [hu _ (by rw [List.map_map]; exact List.map_id ws)]
      exact hus
    have h0 : (runWords (reset m) pre).rfR 0 = 0#32 := by
      rw [hpre.rfR]
      exact hs
    have hpq : Indist (runWords (runWords (reset m) pre) p) (runWords (runWords (reset m) pre) q) := by
      refine indist_of_programs fun post => ?_
      have hpost := h pre post h0
      rwa [runWords_append, runWords_append, runWords_append, runWords_append] at hpost
    have hp := runWords_indist hpre p
    have hq := runWords_indist hpre q
    exact indist_bisim.obsEq (hp.symm.trans (hpq.trans hq))
  · intro h pre post h0
    rw [runWords_append, runWords_append, runWords_append, runWords_append]
    exact rfR_of_obsEq (h _ h0) post

end Core

namespace Tb

/-- **The simulation can end with any register contents**: for any `r` there are at most 2015 safe
    instructions whose image leaves, from any power-up, the registers at `r` and the data RAM as
    it was, once the simulation has had time for all of them. -/
theorem simulate_loadRegs (r : Regs) : ∃ p : List Rv32i.Arith, p.length ≤ 2015 ∧
    (∀ i ∈ p, Core.Safe i) ∧ ∀ (t : Tb) (free : Nat → BitVec 32 × BitVec 32) (n : Nat),
      t.finished = false → 2115 ≤ n →
        (∀ k : BitVec 5, (Sync.run (step (image (p.map Arith.encode))) t
          (edges free n)).core.rfR k.toFin = r.x k) ∧
        (Sync.run (step (image (p.map Arith.encode))) t (edges free n)).core.memR =
          t.core.memR := by
  have hlen : (Core.loadRegs r 31).length ≤ 2015 := Core.length_loadRegs r 31
  have hsafe := Core.safe_loadRegs r (Nat.le_refl 31)
  refine ⟨Core.loadRegs r 31, hlen, hsafe, fun t free n ht hn => ?_⟩
  have hhalt : haltAt = 2048 := rfl
  have hshow := shows_simulation hsafe (by omega) ht free (n := n) (by omega)
  rw [Core.execAll_loadRegs] at hshow
  exact hshow

/-- 0x12345678 in every register but x0, with 3 in all of them at power-up. -/
theorem simulate_loadRegs_all : ∃ p : List Rv32i.Arith, p.length ≤ 2015 ∧
    (∀ i ∈ p, Core.Safe i) ∧ (Sync.run (step (image (p.map Arith.encode)))
      ⟨1#32, 2#32, ⟨fun _ => 3#32, fun _ => 4#32⟩, false⟩
      (edges (fun _ => (5#32, 6#32)) 2149)).core.rfR (31#5).toFin = 0x12345678#32 := by
  obtain ⟨p, hlen, hsafe, hrun⟩ := simulate_loadRegs ((Core.only 0#5 0#32 0x12345678#32).regs rfl)
  exact ⟨p, hlen, hsafe, (hrun _ _ 2149 rfl (by decide)).1 31#5⟩

end Tb

end Xf100
