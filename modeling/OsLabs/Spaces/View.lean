import OsLabs.Spaces.Machine
import OsLabs.Xv6.Boot

/-!
# The memory that a kernel shows

`Kernel.spaces` reads off a kernel what its processes can see below their sizes: a page with the
user bit shows the contents of its frame, and a page that is only marked as lazy shows zeros, since
that is what the first access will find there.

The lemmas say what happens to it when a frame is written (`spaces_poke`), when a process gets a new
memory (`spaces_setMem`) and when a child is made or reaped (`spaces_born`, `spaces_reaped`); each
needs to know of the other processes only that the frames they hold stay as they are.
`CommonEffect.spaces` concludes that the operations that the trees share do what `Spaces.step` says,
if memory does not run out.
-/

namespace OsLabs.Xv6

open StateError Ledger

section View

variable {κ : Type} {k : Kernel κ} {p : ProcPtr} {s s' : Phys κ} {d d' : Pgdir} {sz : ℕ}

/-- What an entry lets the user see. -/
def Pte.shows (s : Phys κ) (e : Pte) : Option Page :=
  if e.P ∧ e.U then some (s.mem e.ppn) else if e.LAZY then some zeroPage else none

/-- The memory that a directory shows to a process of size `sz`. -/
def Pgdir.shows (d : Pgdir) (s : Phys κ) (sz : ℕ) : Memory := fun v =>
  if v < pages sz ∧ v < UPAGES then (d.ent v).shows s else none

/-- What the user programs see. -/
def Kernel.spaces (k : Kernel κ) : Spaces where
  proc := k.proc
  nextpid := k.nextpid
  initproc := k.initproc
  mem p := if (k.proc p).state = .UNUSED then fun _ => none
    else (k.pgdir p).elim (fun _ => none) fun d => d.shows k.phys (k.proc p).sz

theorem Pte.shows_of_P {e : Pte} (hP : e.P = true) (hU : e.U = true) :
    e.shows s = some (s.mem e.ppn) := by
  rw [Pte.shows, if_pos ⟨hP, hU⟩]

/-- The same entry over a frame with the same contents. -/
theorem Pte.shows_congr {e : Pte} (h : e.P = true → s'.mem e.ppn = s.mem e.ppn) :
    e.shows s' = e.shows s := by
  unfold Pte.shows
  by_cases hP : e.P = true
  · rw [h hP]
  · simp [hP]

namespace Pgdir

theorem shows_of_lt {v : ℕ} (hv : v < pages sz) (hu : v < UPAGES) :
    d.shows s sz v = (d.ent v).shows s := by
  rw [Pgdir.shows, if_pos ⟨hv, hu⟩]

theorem shows_of_ge {v : ℕ} (hv : pages sz ≤ v) : d.shows s sz v = none := by
  rw [Pgdir.shows, if_neg (by omega)]

@[simp] theorem shows_flush : d.flush.shows s sz = d.shows s sz := rfl

/-- The pages below the size decide. -/
theorem shows_congr (h : ∀ v < pages sz, v < UPAGES → (d'.ent v).shows s' = (d.ent v).shows s) :
    d'.shows s' sz = d.shows s sz := by
  funext v
  unfold Pgdir.shows
  split
  · rename_i hv
    exact h v hv.1 hv.2
  · rfl

/-- The frames in use keep their contents. -/
theorem shows_keeps {r : Ledger ℕ} (hk : Keeps r s s') (hr : ∀ f, refs d.uses f ≤ refs r f) :
    d.shows s' sz = d.shows s sz :=
  shows_congr fun _ _ hu => Pte.shows_congr fun hP =>
    hk _ (refs_pos.mp (lt_of_lt_of_le (refs_uses_pos hu hP) (hr _)))

end Pgdir

namespace Kernel

theorem spaces_mem {d : Pgdir} (hl : k.live p) (hd : k.pgdir p = some d) :
    k.spaces.mem p = d.shows k.phys (k.proc p).sz := by
  simp only [spaces, if_neg hl, hd, Option.elim_some]

theorem spaces_mem_of_unused (h : (k.proc p).state = .UNUSED) :
    k.spaces.mem p = fun _ => none := by
  simp only [spaces, if_pos h]

/-- A process with the same size and directory sees the same, if its frames have not changed. -/
theorem spaces_mem_congr {k' : Kernel κ}
    (hst : (k'.proc p).state = .UNUSED ↔ (k.proc p).state = .UNUSED)
    (hsz : (k'.proc p).sz = (k.proc p).sz) (hd : k.live p → k'.pgdir p = k.pgdir p)
    (hm : k.live p → ∀ d, k.pgdir p = some d →
      d.shows k'.phys (k.proc p).sz = d.shows k.phys (k.proc p).sz) :
    k'.spaces.mem p = k.spaces.mem p := by
  by_cases hun : (k.proc p).state = .UNUSED
  · rw [spaces_mem_of_unused hun, spaces_mem_of_unused (hst.mpr hun)]
  · simp only [spaces, if_neg hun, if_neg (mt hst.mp hun), hd hun, hsz]
    cases hdp : k.pgdir p with
    | none => rfl
    | some d => exact hm hun d hdp

/-- A change of the table that takes no slot in or out of use. -/
theorem spaces_setTable {t : Table} (hsz : ∀ q, (t q).sz = (k.proc q).sz)
    (hst : ∀ q, (t q).state = .UNUSED ↔ (k.proc q).state = .UNUSED) :
    Kernel.spaces { k with proc := t } = { k.spaces with proc := t } := by
  refine Spaces.ext rfl rfl rfl ?_
  funext q
  exact spaces_mem_congr (hst q) (hsz q) (fun _ => rfl) fun _ _ _ => rfl

/-- A slot in use that stays in use and keeps its size. -/
theorem spaces_setSlot {f : Proc → Proc} (hl : k.live p) (hsz : (f (k.proc p)).sz = (k.proc p).sz)
    (hst : (f (k.proc p)).state ≠ .UNUSED) :
    Kernel.spaces { k with proc := k.proc.set p f } =
      { k.spaces with proc := k.proc.set p f } := by
  refine spaces_setTable (fun q => ?_) fun q => Table.set_unused hl hst q
  rw [Table.set_apply]
  split
  · rename_i hq
    rw [hq, hsz]
  · rfl

/-- A directory loaded into `cr3` again shows the same. -/
theorem spaces_flush (hd : k.pgdir p = some d) :
    Kernel.spaces { k with pgdir := Function.update k.pgdir p (some d.flush) } = k.spaces := by
  refine Spaces.ext rfl rfl rfl ?_
  funext q
  simp only [spaces]
  by_cases hq : q = p
  · subst hq
    rw [Function.update_self, hd]
    rfl
  · rw [Function.update_of_ne hq]

/-- The other processes keep their memory when `p` gets a new one. -/
theorem spaces_setMem {r : Ledger ℕ} (hl : k.live p) (hk : Keeps (r + k.rest p) k.phys s') :
    (k.setMem p s' sz d').spaces = k.spaces.resize p sz (d'.shows s' sz) := by
  have hst : ∀ q, ((k.setMem p s' sz d').proc q).state = .UNUSED ↔ (k.proc q).state = .UNUSED :=
    fun q => not_iff_not.mp (live_setMem q)
  refine Spaces.ext rfl rfl rfl ?_
  funext q
  change _ = Function.update k.spaces.mem p (d'.shows s' sz) q
  by_cases hq : q = p
  · subst hq
    rw [spaces_mem ((live_setMem q).mpr hl) setMem_self.2, Function.update_self, setMem_self.1]
    rfl
  · rw [Function.update_of_ne hq]
    refine spaces_mem_congr (hst q) (by rw [(setMem_of_ne hq).1]) (fun _ => (setMem_of_ne hq).2)
      fun hlq d hd => ?_
    exact d.shows_keeps hk.right fun f => refs_uses_le_rest hq hlq hd f

/-- New memory that shows the same. -/
theorem spaces_setMem_same {r : Ledger ℕ} (hl : k.live p) (hd : k.pgdir p = some d)
    (hk : Keeps (r + k.rest p) k.phys s')
    (hm : d'.shows s' (k.proc p).sz = d.shows k.phys (k.proc p).sz) :
    (k.setMem p s' (k.proc p).sz d').spaces = k.spaces := by
  rw [spaces_setMem hl hk, hm, ← spaces_mem hl hd]
  exact (Spaces.resize_self _).trans (by rw [Function.update_eq_self])

/-- A child that shows what the parent shows. -/
theorem spaces_born {r : Ledger ℕ} {np : ProcPtr} {f : ℕ} {d₂ : Pgdir} (hl : k.live p)
    (hnp : (k.proc np).state = .UNUSED) (hd : k.pgdir p = some d)
    (hk : Keeps (r + k.rest p) k.phys s')
    (h₁ : d'.shows s' (k.proc p).sz = d.shows k.phys (k.proc p).sz)
    (h₂ : d₂.shows s' (k.proc p).sz = d.shows k.phys (k.proc p).sz) :
    (k.born p np f s' d' d₂).spaces = { k.spaces with
      proc := k.proc.set np fun q => { q with
        sz := (k.proc p).sz, parent := some p, state := .RUNNABLE, pid := k.nextpid }
      nextpid := k.nextpid + 1
      mem := Function.update k.spaces.mem np (k.spaces.mem p) } := by
  have hne : p ≠ np := fun e => hl (by rw [e]; exact hnp)
  refine Spaces.ext rfl rfl rfl ?_
  funext q
  change _ = Function.update k.spaces.mem np (k.spaces.mem p) q
  by_cases hq : q = np
  · subst hq
    rw [spaces_mem (d := d₂) (live_born.mpr (Or.inl rfl)) (by simp [born]), Function.update_self,
      spaces_mem hl hd, ← h₂]
    simp [born]
  rw [Function.update_of_ne hq]
  by_cases hqp : q = p
  · subst hqp
    rw [spaces_mem hl hd, spaces_mem (d := d') (live_born.mpr (Or.inr hl)) (by simp [born, hne]),
      ← h₁]
    simp [born, Table.set_ne _ _ hne]
  · refine spaces_mem_congr (by simp [born, Table.set_ne _ _ hq]) (by
      simp [born, Table.set_ne _ _ hq]) (fun _ => by simp [born, hq, hqp]) fun hlq d hd => ?_
    exact d.shows_keeps hk.right fun f => refs_uses_le_rest hqp hlq hd f

/-- A byte written to a frame with one claim does not show in the other processes. -/
theorem spaces_poke_of_ne {x : Ledger ℕ} {q : ProcPtr} {v o : ℕ} {b : UInt8} (hl : k.live p)
    (hd : k.pgdir p = some d) (hu : v < UPAGES) (hP : (d.ent v).P = true)
    (h1 : refs (x + k.total) (d.ent v).ppn ≤ 1) (hq : q ≠ p) :
    (k.poke (d.ent v).ppn o b).spaces.mem q = k.spaces.mem q := by
  have hself := Pgdir.refs_uses_pos hu hP
  rw [total_eq_rest hl hd] at h1
  simp only [refs_add, Pgdir.holds] at h1
  refine spaces_mem_congr Iff.rfl rfl (fun _ => rfl) fun hlq d₁ hd₁ => ?_
  refine Pgdir.shows_congr fun w _ hwu => ?_
  refine Pte.shows_congr fun hPw => Phys.fill_mem_ne _ _ _ fun he => ?_
  -- the frame would have a claim of `q` and one of `p`
  have h₁ := Pgdir.refs_uses_pos hwu hPw
  have h₂ := refs_uses_le_rest (p := p) hq hlq hd₁ (d₁.ent w).ppn
  rw [he] at h₁ h₂
  omega

/-- A byte written to a frame with one claim changes one page of one process. -/
theorem spaces_poke {x : Ledger ℕ} {v o : ℕ} {b : UInt8} (hl : k.live p)
    (hd : k.pgdir p = some d) (hv : v < pages (k.proc p).sz) (hu : v < UPAGES)
    (hP : (d.ent v).P = true) (hU : (d.ent v).U = true)
    (h1 : refs (x + k.total) (d.ent v).ppn ≤ 1) :
    (k.poke (d.ent v).ppn o b).spaces = { k.spaces with
      mem := Function.update k.spaces.mem p ((k.spaces.mem p).write v o b) } := by
  have h1' := h1
  rw [total_eq_rest hl hd] at h1'
  simp only [refs_add, Pgdir.holds] at h1'
  refine Spaces.ext rfl rfl rfl ?_
  funext q
  change _ = Function.update k.spaces.mem p ((k.spaces.mem p).write v o b) q
  by_cases hq : q = p
  · subst hq
    rw [Function.update_self, spaces_mem (k := k.poke _ o b) hl hd, spaces_mem hl hd]
    change d.shows _ (k.proc q).sz = _
    funext w
    by_cases hw : w = v
    · subst hw
      rw [Memory.write, Function.update_self, Pgdir.shows_of_lt hv hu, Pgdir.shows_of_lt hv hu,
        Pte.shows_of_P hP hU, Pte.shows_of_P hP hU]
      simp [poke]
    · rw [Memory.write, Function.update_of_ne hw]
      unfold Pgdir.shows
      split
      · rename_i hwu
        refine Pte.shows_congr fun hPw => Phys.fill_mem_ne _ _ _ fun he => hw ?_
        exact (Pgdir.inj_of_refs hu hwu.2 hP hPw he.symm (by omega)).symm
      · rfl
  · rw [Function.update_of_ne hq]
    exact spaces_poke_of_ne hl hd hu hP h1 hq

/-- A reaped child is gone, and the others keep their memory. -/
theorem spaces_reaped {x r : Ledger ℕ} {f : ℕ} (hl : k.live p) (hd : k.pgdir p = some d)
    (hf : k.kstack p = some f) (hr : k.total = r + (excl f + d.holds))
    (hk : Keeps (x + r) k.phys s') :
    (k.reaped p s').spaces = { k.spaces with
      proc := k.proc.reap p
      mem := Function.update k.spaces.mem p fun _ => none } := by
  have hrest : r = k.ownHolds + ∑ q ∈ Finset.univ.erase p, k.slotHolds q := by
    have := total_eq_rest hl hd
    rw [hr, rest, hf, Option.elim_some, ← add_assoc] at this
    exact add_right_cancel (add_right_cancel this)
  refine Spaces.ext rfl rfl rfl ?_
  funext q
  change _ = Function.update k.spaces.mem p (fun _ => none) q
  by_cases hq : q = p
  · subst hq
    rw [Function.update_self]
    exact spaces_mem_of_unused (by simp [reaped, Table.reap])
  · rw [Function.update_of_ne hq]
    refine spaces_mem_congr (by simp [reaped, Table.reap, Table.set_ne _ _ hq])
      (by simp [reaped, Table.reap, Table.set_ne _ _ hq]) (fun _ => rfl) fun hlq d₁ hd₁ => ?_
    refine d₁.shows_keeps hk.right fun g => ?_
    have hslot : k.slotHolds q = (k.kstack q).elim 0 excl + d₁.holds := by
      rw [slotHolds, if_neg hlq, hd₁, Option.elim_some]
    rw [hrest, ← Finset.add_sum_erase _ _ (Finset.mem_erase.mpr ⟨hq, Finset.mem_univ q⟩), hslot]
    simp only [Pgdir.holds, refs_add]
    omega

end Kernel

end View

/-! ## The operations that the trees share -/

section Common

variable {κ : Type} [Kalloc κ] {x : Ledger ℕ} {k k' : Kernel κ} {p : ProcPtr} {res r : Result}
variable {a' : Spaces} {s' : Phys κ} {d d' : Pgdir} {sz' : ℕ} {n : ℤ}

/-- `sbrk`, if memory does not run out. -/
theorem SbrkEffect.spaces (hw : k.spaces.Whole) (hl : k.live p) (hd : k.pgdir p = some d)
    (hn : n < 2 ^ 31) (ho : s'.oom = false)
    (he : SbrkEffect (x + k.rest p) k.phys d (k.proc p).sz n res s' sz' d')
    (ha : k.spaces.sbrk p n = some (r, a')) :
    res = r ∧ (k.setMem p s' sz' d').spaces = a' := by
  have hlt : (k.proc p).sz < KERNBASE := hw.sz_lt p hl
  have hpg := pages_le_UPAGES (le_of_lt hlt)
  have hproc : k.spaces.proc = k.proc := rfl
  have hsame : Keeps (x + k.rest p) k.phys k.phys := .refl _ _
  unfold Spaces.sbrk at ha
  simp only [hproc] at ha
  cases he with
  | same h =>
    rw [KERNBASE_eq] at hlt ha
    rw [Kernel.spaces_setMem_same hl hd hsame d.shows_flush]
    by_cases h0 : n = 0
    · rw [if_pos h0] at ha
      exact Prod.mk.inj (Option.some.inj ha)
    · have h1 : (k.proc p).sz + n < 0 ∧ 0 < (k.proc p).sz := by omega
      rw [if_neg h0, if_neg (by omega), if_neg (by omega), if_neg (by omega), if_pos h1.1] at ha
      exact Prod.mk.inj (Option.some.inj ha)
  | refused h =>
    rw [Kernel.spaces_setMem_same hl hd hsame rfl]
    rcases h with h | ⟨hneg, hz⟩
    · rw [if_neg (by omega), if_pos h] at ha
      exact Prod.mk.inj (Option.some.inj ha)
    · rw [if_neg (by omega), if_neg (by omega), if_neg (by omega), if_pos hz] at ha
      exact Prod.mk.inj (Option.some.inj ha)
  | grown hpos hnew hlt' ho' hg hf hk hlen =>
    have hup := pages_le_UPAGES (le_of_lt hlt')
    have hto : ((k.proc p).sz + n).toNat = sz' := by omega
    rw [if_neg (by omega), if_neg (by omega), if_pos hpos, hto] at ha
    obtain ⟨rfl, rfl⟩ := Prod.mk.inj (Option.some.inj ha)
    refine ⟨rfl, ?_⟩
    rw [Kernel.spaces_setMem hl hk.left, Kernel.spaces_mem hl hd, Pgdir.shows_flush]
    congr 1
    funext v
    unfold Memory.extend
    by_cases hin : pages (k.proc p).sz ≤ v ∧ v < pages sz'
    · have hfl := hg.flags v hin.1 hin.2
      rw [if_pos hin, Pgdir.shows_of_lt hin.2 (by omega),
        Pte.shows_of_P (by rw [hfl]) (by rw [hfl]), (hf v hin.1 hin.2).2]
    · have hle := pages_mono (show (k.proc p).sz ≤ sz' by omega)
      rw [if_neg hin, ← d.shows_keeps hk.right fun _ => le_refl _]
      by_cases hv : v < pages (k.proc p).sz
      · rw [Pgdir.shows_of_lt hv (by omega), Pgdir.shows_of_lt (by omega) (by omega),
          hg.out v (Or.inl hv)]
      · rw [Pgdir.shows_of_ge (by omega), Pgdir.shows_of_ge (by omega)]
  | failed hpos hnew hlt' ho' =>
    rw [ho'] at ho
    cases ho
  | @shrunk _ _ d₁ hneg hnew hpos ho' hc hk =>
    have hto : ((k.proc p).sz + n).toNat = sz' := by omega
    have hle := pages_mono (show sz' ≤ (k.proc p).sz by omega)
    rw [if_neg (by omega), if_neg (by omega), if_neg (by omega), if_neg (by omega),
      if_neg (by omega), if_neg (by omega), hto] at ha
    obtain ⟨rfl, rfl⟩ := Prod.mk.inj (Option.some.inj ha)
    refine ⟨rfl, ?_⟩
    rw [Kernel.spaces_setMem hl hk.left, Kernel.spaces_mem hl hd, Pgdir.shows_flush,
      d₁.shows_keeps hk.right fun _ => le_refl _]
    congr 1
    funext v
    unfold Memory.cut
    by_cases hin : v < pages sz'
    · rw [if_pos hin, Pgdir.shows_of_lt hin (by omega), Pgdir.shows_of_lt (by omega) (by omega),
        hc.ent, if_neg (by omega)]
    · rw [if_neg hin, Pgdir.shows_of_ge (by omega)]
  | emptied hneg hz ho' hc hk =>
    rw [if_neg (by omega), if_neg (by omega), if_neg (by omega), if_neg (by omega),
      if_neg (by omega), if_pos hz] at ha
    cases ha

omit [Kalloc κ] in
/-- An operation that is not possible. -/
theorem Spaces.step_disabled {op : Op} (h : ¬op.enabled k)
    (ha : k.spaces.step op = some (r, a')) : r = .disabled ∧ a' = k.spaces := by
  have hrun : ∀ {p : ProcPtr} {o : Option (Result × Spaces)}, (k.proc p).state ≠ .RUNNING →
      k.spaces.whenRunning p o = some (r, a') → r = .disabled ∧ a' = k.spaces :=
    fun hp h => ((Spaces.whenRunning_eq_some h).resolve_left fun hc => hp hc.1).2
  cases op with
  | sched p =>
    have hs : k.spaces.sched p = (r, a') := Option.some.inj ha
    have hp : (k.spaces.proc p).state ≠ .RUNNABLE := h
    rw [Spaces.sched, if_neg hp] at hs
    obtain ⟨rfl, rfl⟩ := Prod.mk.inj hs
    exact ⟨rfl, rfl⟩
  | yield | fork | sbrk | load | store | exit | wait => exact hrun h ha
  | mmap | exec | kalloc | kfree => cases ha

/-- The operations that the trees share do what they should, if memory does not run out. -/
theorem CommonEffect.spaces [Layout] [LawfulKalloc κ] {op : Op} (hw : k.spaces.Whole)
    (ho : k'.phys.oom = false) (he : CommonEffect x k op res k')
    (ha : k.spaces.step op = some (r, a')) : res = r ∧ k'.spaces = a' := by
  cases he with
  | disabled h =>
    obtain ⟨rfl, rfl⟩ := Spaces.step_disabled h ha
    exact ⟨rfl, rfl⟩
  | @sched p d hp hd =>
    have hs : k.spaces.sched p = (r, a') := Option.some.inj ha
    have hp' : (k.spaces.proc p).state = .RUNNABLE := hp
    rw [Spaces.sched, if_pos hp'] at hs
    obtain ⟨rfl, rfl⟩ := Prod.mk.inj hs
    refine ⟨rfl, ?_⟩
    have hslot := @Kernel.spaces_setSlot _ { k with pgdir := Function.update k.pgdir p (some d.flush) }
      p (fun q => { q with state := .RUNNING, chan := none }) (by simp [Kernel.live, hp]) rfl (by simp)
    rw [Kernel.spaces_flush hd] at hslot
    exact hslot
  | @yield p hp =>
    obtain ⟨rfl, rfl⟩ := Prod.mk.inj (Option.some.inj (Spaces.of_running hp ha))
    exact ⟨rfl, Kernel.spaces_setSlot (live_of_running hp) rfl (by simp)⟩
  | sbrk hp hd hm =>
    obtain ⟨s', sz', d', rfl, -, -, hs⟩ := hm
    exact hs.spaces hw (live_of_running hp) hd (argint_bounds _).2 ho (Spaces.of_running hp ha)
  | execFail | execOk | kallocNone | kallocSome | kfree => cases ha
  | @exit p hp =>
    have hs := Spaces.of_running hp ha
    unfold Spaces.exit at hs
    split_ifs at hs
    obtain ⟨rfl, rfl⟩ := Prod.mk.inj (Option.some.inj hs)
    exact ⟨rfl, Kernel.spaces_setTable (fun q => Table.exit_sz ..)
      (Table.exit_unused _ (live_of_running hp))⟩
  | @wait p res k' hp hwait =>
    have hs : k.spaces.wait p = (r, a') := Option.some.inj (Spaces.of_running hp ha)
    have hproc : k.spaces.proc = k.proc := rfl
    unfold Spaces.wait at hs
    rw [hproc] at hs
    cases hwait with
    | @reaped q d f s' hq hd hf r' hr' ha' hk ho' =>
      have hl : k.live q := by simp [Kernel.live, (Table.zombieOf_iff.mp (Table.first_some hq)).2]
      rw [hq] at hs
      obtain ⟨rfl, rfl⟩ := Prod.mk.inj hs
      exact ⟨rfl, Kernel.spaces_reaped hl hd hf hr' hk⟩
    | none hq hk =>
      rw [hq] at hs
      dsimp only at hs
      rw [if_pos hk] at hs
      obtain ⟨rfl, rfl⟩ := Prod.mk.inj hs
      exact ⟨rfl, rfl⟩
    | slept hq hk =>
      rw [hq] at hs
      dsimp only at hs
      rw [if_neg hk] at hs
      obtain ⟨rfl, rfl⟩ := Prod.mk.inj hs
      exact ⟨rfl, Kernel.spaces_setSlot (live_of_running hp) rfl (by simp)⟩

/-- `fork`, where `copyuvm` leaves two directories that show what the parent's showed. -/
theorem ForkEffect.spaces [Layout] [LawfulKalloc κ]
    {CP : Ledger ℕ → Phys κ → Option Pgdir × Pgdir → Phys κ → Prop}
    {reload : Bool} (hl : k.live p) (hd : k.pgdir p = some d)
    (hcp : ∀ {r s res s'}, CP r s res s' → s'.oom = false → Keeps r s s' ∧
      res.2.shows s' (k.proc p).sz = d.shows s (k.proc p).sz ∧
      ∃ d₂, res.1 = some d₂ ∧ d₂.shows s' (k.proc p).sz = d.shows s (k.proc p).sz)
    (ho : k'.phys.oom = false) (he : ForkEffect CP reload x k p res k')
    (ha : k.spaces.fork p = some (r, a')) : res = r ∧ k'.spaces = a' := by
  have hproc : k.spaces.proc = k.proc := rfl
  unfold Spaces.fork at ha
  rw [hproc] at ha
  cases he with
  | full hnp =>
    rw [hnp] at ha
    exact Prod.mk.inj (Option.some.inj ha)
  | noStack => cases ho
  | noCopy hnp hf hm₁ ho₁ hfree hc ha' hk ho' =>
    obtain ⟨-, -, d₂, h₂, -⟩ := hcp hc (ho'.symm.trans ho)
    cases h₂
  | @born np f s₁ s' d' d₂ hnp hf hm₁ ho₁ hfree hc ha' =>
    have hun : (k.proc np).state = .UNUSED := by simpa using Table.first_some hnp
    obtain ⟨hk, h₁, d₂', h₂, h₃⟩ := hcp hc ho
    obtain rfl : d₂ = d₂' := Option.some.inj h₂
    have hm : ∀ d₀ : Pgdir, d₀.shows s₁ (k.proc p).sz = d₀.shows k.phys (k.proc p).sz :=
      fun d₀ => d₀.shows_keeps (.of_mem_eq hm₁) fun _ => le_refl _
    rw [hm] at h₁ h₃
    rw [hnp] at ha
    dsimp only at ha
    split_ifs at ha
    obtain ⟨rfl, rfl⟩ := Prod.mk.inj (Option.some.inj ha)
    refine ⟨rfl, Kernel.spaces_born (r := x) hl hun hd ?_ ?_ h₃⟩
    · exact (Keeps.of_mem_eq hm₁).trans hk.left
    · split
      · exact h₁
      · exact h₁

/-! ## User accesses -/

section Access

variable {kills : Pgdir → ℕ → Prop} {va v n : ℕ} {b : UInt8}

omit [Kalloc κ] in
/-- A page that is seen, where it is not lazy, is present and the user's. -/
theorem Pgdir.shows_eq_some {sz : ℕ} {s : Phys κ} {pg : Page} (hL : (d.ent v).LAZY = false)
    (h : d.shows s sz v = some pg) : v < pages sz ∧ v < UPAGES ∧ (d.ent v).P = true ∧
      (d.ent v).U = true ∧ s.mem (d.ent v).ppn = pg := by
  unfold Pgdir.shows at h
  split_ifs at h with hv
  unfold Pte.shows at h
  split_ifs at h with hPU hl
  · exact ⟨hv.1, hv.2, hPU.1, hPU.2, Option.some.inj h⟩
  · rw [hL] at hl
    cases hl

omit [Kalloc κ] in
/-- A read that is let through. -/
theorem AccessEnd.load_spaces (hva : va < 2 ^ 32) (hv : va / 4096 = v) (hd : k.pgdir p = some d)
    (hP : (d.ent v).P = true) (hU : (d.ent v).U = true)
    (he : AccessEnd kills p va none n k res k') :
    res = .byte (k.phys.mem (d.ent v).ppn (va % PGSIZE)) n ∧ k' = k := by
  have hp : (d.ent v).permits false = true := by simp [Pte.permits, hP, hU]
  cases he with
  | load hw hd' ha =>
    obtain rfl := Option.some.inj (hd.symm.trans hd')
    obtain ⟨rfl, -⟩ := (Pgdir.allows_iff hva hv).mp ha
    exact ⟨rfl, rfl⟩
  | store hw => cases hw
  | killed hd' hno =>
    obtain rfl := Option.some.inj (hd.symm.trans hd')
    exact absurd ((Pgdir.exists_allows hva hv).mpr hp) hno

omit [Kalloc κ] in
/-- A write to a page of its own that is let through. -/
theorem AccessEnd.store_spaces (hva : va < 2 ^ 32) (hv : va / 4096 = v) (hl : k.live p)
    (hd : k.pgdir p = some d) (hvn : v < pages (k.proc p).sz) (hu : v < UPAGES)
    (hP : (d.ent v).P = true) (hU : (d.ent v).U = true) (hW : (d.ent v).W = true)
    (h1 : refs (x + k.total) (d.ent v).ppn ≤ 1) (he : AccessEnd kills p va (some b) n k res k') :
    res = .written n ∧ k'.phys.oom = k.phys.oom ∧ k'.spaces = { k.spaces with
      mem := Function.update k.spaces.mem p ((k.spaces.mem p).write v (va % PGSIZE) b) } := by
  have hp : (d.ent v).permits true = true := by simp [Pte.permits, hP, hU, hW]
  cases he with
  | load hw => cases hw
  | store hw hd' ha =>
    obtain rfl := Option.some.inj (hd.symm.trans hd')
    obtain ⟨rfl, -⟩ := (Pgdir.allows_iff hva hv).mp ha
    obtain rfl := Option.some.inj hw
    exact ⟨rfl, rfl, Kernel.spaces_poke hl hd hvn hu hP hU h1⟩
  | killed hd' hno =>
    obtain rfl := Option.some.inj (hd.symm.trans hd')
    exact absurd ((Pgdir.exists_allows hva hv).mpr hp) hno

end Access

/-! ## Boot -/

/-- The first process, with the initial code in its only page. -/
def Spaces.boot (M : Machine) : Spaces where
  proc q := if q = initSlot then { sz := PGSIZE, state := .RUNNABLE, pid := 1 } else {}
  nextpid := 2
  initproc := some initSlot
  mem q v := if q = initSlot ∧ v = 0 then some (writeBytes zeroPage 0 M.initcode) else none

theorem Spaces.whole_boot (M : Machine) : (Spaces.boot M).Whole := by
  have hinit : ∀ {q : ProcPtr}, (Spaces.boot M).live q → q = initSlot := fun {q} hq => by
    by_contra hne
    simp [Spaces.live, Spaces.boot, hne] at hq
  refine ⟨fun q hq => ?_, fun q hq v => ?_⟩
  · obtain rfl := hinit hq
    simp only [Spaces.boot, if_true]
    decide
  · obtain rfl := hinit hq
    have hone : pages PGSIZE = 1 := by decide
    simp [Spaces.boot, hone]

theorem Booted.spaces [Layout] [LawfulKalloc κ] {M : Machine} (h : Booted M k) :
    k.spaces = Spaces.boot M := by
  obtain ⟨d, hd, hi, hU, hm, -⟩ := h.dir
  refine Spaces.ext h.table h.nextpid h.initproc ?_
  funext q
  by_cases hq : q = initSlot
  · subst hq
    rw [Kernel.spaces_mem h.live hd, h.sz]
    funext v
    have hone : Xv6.pages PGSIZE = 1 := by decide
    by_cases hv : v = 0
    · subst hv
      rw [Pgdir.shows_of_lt (by rw [hone]; decide) (by decide),
        Pte.shows_of_P (hi.low 0 (by decide)).1 hU, hm]
      simp [Spaces.boot]
    · rw [Pgdir.shows_of_ge (by rw [hone]; omega)]
      simp [Spaces.boot, hv]
  · rw [Kernel.spaces_mem_of_unused (by simp [h.table, hq])]
    simp [Spaces.boot, hq]

end Common

end OsLabs.Xv6
