import OsLabs.Spaces.View
import OsLabs.Cow.System

/-!
# The copy-on-write kernel keeps private address spaces

Sharing a frame after `fork` and copying it at the first write cannot be told from a copy made by
`fork`: what the processes see changes as `Spaces.step` says.

* `CopyEffect.shows`: `copyuvm` leaves parent and child with what the parent saw;
* `FaultEffect.spaces`: a copy-on-write fault changes nothing that is seen;
* `step_spaces`: an operation does what it should, after one fault at most, or memory has run out.
-/

namespace OsLabs.Cow

open Xv6 StateError Ledger

section Copy

variable [Layout] {r : Ledger ℕ} {s s' : Phys Kmem} {d₀ : Pgdir} {sz : ℕ}

omit [Layout] in
theorem shows_protect (e : Pte) : (protect e).shows s = e.shows s := by
  simp [Pte.shows]

/-- `copyuvm` leaves two directories that show the same as the parent's. -/
theorem CopyEffect.shows {res : Option Pgdir × Pgdir} (h : CopyEffect d₀ sz r s res s')
    (ho : s'.oom = false) : Keeps r s s' ∧ res.2.shows s' sz = d₀.shows s sz ∧
      ∃ c, res.1 = some c ∧ c.shows s' sz = d₀.shows s sz := by
  cases h with
  | @copied d c _ hp hP hc hm ho' hfree =>
    have hd : d.shows s' sz = d₀.shows s sz := Pgdir.shows_congr fun v hv _ => by
      rw [hp.ent, if_pos hv, shows_protect]
      exact Pte.shows_congr fun _ => by rw [hm]
    refine ⟨.of_mem_eq hm, hd, c, rfl, hd ▸ Pgdir.shows_congr fun v hv _ => ?_⟩
    rw [hc.low v hv]
  | failed hn hp hk ho' =>
    rw [ho'] at ho
    cases ho

end Copy

section System

variable [Layout] {k k' : Kernel Kmem} {p : ProcPtr} {d d' : Pgdir} {s' : Phys Kmem} {va v : ℕ}

/-- No page of this tree is lazy. -/
theorem Ok.not_lazy (h : Ok k) (hl : k.live p) (hd : k.pgdir p = some d) (hv : v < UPAGES) :
    (d.ent v).LAZY = false := by
  rcases h.pages p d hl hd v hv with e | ⟨-, hL, -, -⟩
  · rw [e]
    rfl
  · exact hL

/-- A page that is seen is present and the user's. -/
theorem Ok.seen (h : Ok k) (hl : k.live p) (hd : k.pgdir p = some d) {pg : Page}
    (hs : k.spaces.mem p v = some pg) : v < pages (k.proc p).sz ∧ v < UPAGES ∧
      (d.ent v).P = true ∧ (d.ent v).U = true ∧ k.phys.mem (d.ent v).ppn = pg := by
  rw [Kernel.spaces_mem hl hd] at hs
  have hu : v < UPAGES := by
    by_contra hge
    rw [Pgdir.shows, if_neg fun hc => hge hc.2] at hs
    cases hs
  exact Pgdir.shows_eq_some (h.not_lazy hl hd hu) hs

omit [Layout] in
/-- A copy-on-write fault changes nothing that is seen. -/
theorem FaultEffect.spaces (hl : k.live p) (hd : k.pgdir p = some d) (hP : (d.ent v).P = true)
    (hU : (d.ent v).U = true) (hf : FaultEffect d v (0 + k.rest p) k.phys d' s') :
    (k.setMem p s' (k.proc p).sz d'.flush).spaces = k.spaces := by
  cases hf with
  | sole h1 hr =>
    refine Kernel.spaces_setMem_same (r := 0) hl hd (.refl _ _) (Pgdir.shows_congr fun w _ _ => ?_)
    rw [Pgdir.ent_flush, hr.ent]
    split
    · rename_i hw
      rw [hw]
      rfl
    · rfl
  | @copied mem _ h2 hmem hr hc hk ho =>
    have hkeep : ∀ {r : Ledger ℕ}, r mem = 0 → Keeps r k.phys s' := fun hr f hf =>
      hk f fun e => hf (e ▸ hr)
    have hsum : refs (0 + k.rest p) mem + refs d.holds mem = 0 := by
      rw [← refs_add, refs_eq_zero.mpr hmem]
    refine Kernel.spaces_setMem_same (r := 0) hl hd (hkeep (refs_eq_zero.mp (by omega)))
      (Pgdir.shows_congr fun w _ hwu => ?_)
    rw [Pgdir.ent_flush, hr.ent]
    split
    · rename_i hw
      rw [hw, Pte.shows_of_P rfl rfl, Pte.shows_of_P hP hU, hc]
    · refine Pte.shows_congr fun hPw => hkeep (r := d.holds) (refs_eq_zero.mp (by omega)) _ ?_
      have := Pgdir.refs_uses_pos hwu hPw
      refine refs_pos.mp ?_
      simp only [Pgdir.holds, refs_add]
      omega

/-- A write that is let through is to a page of the process alone. -/
theorem Ok.store_end (h : Ok k) (hl : k.live p) (hd : k.pgdir p = some d) (hva : va < 2 ^ 32)
    (hv : va / 4096 = v) {pg : Page} (hs : k.spaces.mem p v = some pg) {n : ℕ} {b : UInt8}
    {res : Result} (he : AccessEnd kills p va (some b) n k res k') :
    res = .written n ∧ k'.phys.oom = k.phys.oom ∧ k'.spaces = { k.spaces with
      mem := Function.update k.spaces.mem p ((k.spaces.mem p).write v (va % PGSIZE) b) } := by
  obtain ⟨hvn, hu, hP, hU, -⟩ := h.seen hl hd hs
  obtain ⟨-, -, hC, h1⟩ := (h.pages p d hl hd v hu).resolve_left fun e => by
    rw [e] at hP
    cases hP
  have hhas : d.has (v / 1024) := Pgdir.has_of_P hP
  have hfind : d.find va = some (d.ent v) := by
    rw [Pgdir.find_of_has hva (by rwa [hv]), hv]
  have hW : (d.ent v).W = true := by
    cases he with
    | load hw => cases hw
    | store hw hd' ha =>
      obtain rfl := Option.some.inj (hd.symm.trans hd')
      obtain ⟨rfl, hp⟩ := (Pgdir.allows_iff hva hv).mp ha
      simpa [Pte.permits, hP, hU] using hp
    | killed hd' hno hk =>
      obtain rfl := Option.some.inj (hd.symm.trans hd')
      rw [kills, check_eq hva hv hfind, hC] at hk
      simpa using hk
  exact AccessEnd.store_spaces hva hv hl hd hvn hu hP hU hW (h1 hW) he

/-- A read returns the byte that is seen, without a fault. -/
theorem AccessEffect.load_spaces (h : Ok k) (hl : k.live p) (hva : va < 2 ^ 32) {r res : Result}
    {a' : Spaces} (he : AccessEffect p va none k res k')
    (ha : k.spaces.load p va = some (r, a')) : res.seen = r ∧ res.faults ≤ 1 ∧ k'.spaces = a' := by
  obtain ⟨d, -, hd, -⟩ := h.inv.live p hl
  obtain ⟨pg, hs, heq⟩ := Option.map_eq_some_iff.mp ha
  obtain ⟨rfl, rfl⟩ := Prod.mk.inj heq
  obtain ⟨hvn, hu, hP, hU, rfl⟩ := h.seen hl hd hs
  cases he with
  | direct he =>
    obtain ⟨rfl, rfl⟩ := he.load_spaces hva rfl hd hP hU
    exact ⟨rfl, Nat.zero_le 1, rfl⟩
  | fault hv hup hd' hP' hC hno =>
    obtain rfl := Option.some.inj (hd.symm.trans hd')
    refine absurd ((Pgdir.exists_allows hva rfl).mpr ?_) hno
    simp [Pte.permits, hP, hU]

/-- A write ends after one fault at most, and its byte is all that changes. -/
theorem AccessEffect.store_spaces (h : Ok k) (hl : k.live p) (hva : va < 2 ^ 32) {b : UInt8}
    {r res : Result} {a' : Spaces} (he : AccessEffect p va (some b) k res k')
    (ha : k.spaces.store p va b = some (r, a')) :
    res.seen = r ∧ res.faults ≤ 1 ∧ k'.spaces = a' := by
  obtain ⟨d, -, hd, -⟩ := h.inv.live p hl
  obtain ⟨pg, hs, heq⟩ := Option.map_eq_some_iff.mp ha
  obtain ⟨rfl, rfl⟩ := Prod.mk.inj heq
  obtain ⟨hvn, hu, hP, hU, -⟩ := h.seen hl hd hs
  cases he with
  | direct he =>
    obtain ⟨rfl, -, hk⟩ := h.store_end hl hd hva rfl hs he
    exact ⟨rfl, Nat.zero_le 1, hk⟩
  | @fault v _ d₀ d' s' _ hv hup hd' hP' hC hno hf hacct he =>
    obtain rfl := Option.some.inj (hd.symm.trans hd')
    subst hv
    have hsame := FaultEffect.spaces hl hd hP hU hf
    have hok := h.fault hl hd hup hP' hf hacct
    obtain ⟨rfl, -, hk⟩ := hok.store_end ((Kernel.live_setMem p).mpr hl) Kernel.setMem_self.2 hva
      rfl (by rw [hsame]; exact hs) he
    rw [hsame] at hk
    exact ⟨rfl, le_refl 1, hk⟩

/-- An operation within what the processes are promised stops only for want of memory. -/
theorem Ok.stop_oom (h : Ok k) (hw : k.spaces.Whole) {op : Op} {e : Panic} {r : Result}
    {a' : Spaces} (ha : k.spaces.step op = some (r, a')) (hs : step tree op k = .error e k')
    (he : Stop k op e k') : k'.phys.oom = true := by
  have hrun : ∀ {p : ProcPtr} {m : KM Kmem Result} {o : Option (Result × Spaces)},
      Xv6.whenRunning p m k = .error e k' → k.spaces.whenRunning p o = some (r, a') →
      (k.proc p).state = .RUNNING ∧ o = some (r, a') := fun hs h =>
    ⟨running_of_error hs, Spaces.of_running (running_of_error hs) h⟩
  have haccess : ∀ {p : ProcPtr} {va : ℕ} {α : Type} {f : Page → α} {y : α},
      (k.proc p).state = .RUNNING → (k.spaces.mem p (va / 4096)).map f = some y → va < 2 ^ 32 →
      AccessStop k p va e k' → k'.phys.oom = true := by
    intro p va α f y hp hm hva he
    have hl := live_of_running hp
    rcases he with ⟨-, ho, -⟩ | ⟨-, d, hd, hno⟩
    · exact ho
    · obtain ⟨pg, hs, -⟩ := Option.map_eq_some_iff.mp hm
      obtain ⟨-, -, hP, hU, -⟩ := h.seen hl hd hs
      refine absurd ((Pgdir.exists_allows hva rfl).mpr ?_) hno
      simp [Pte.permits, hP, hU]
  have huint : ∀ va, uint va < 2 ^ 32 := fun va => Nat.mod_lt _ (by decide)
  cases op with
  | fork p =>
    obtain ⟨hp, hf⟩ := hrun hs ha
    have hl := live_of_running hp
    obtain ⟨hnone, ⟨-, hpid⟩ | ⟨-, d, hd, w, hw', hP⟩⟩ := he
    · exact absurd hpid (Spaces.fork_pid hf hnone)
    · -- every page below the size is seen, and so present
      obtain ⟨pg, hs⟩ := Option.ne_none_iff_exists'.mp ((hw.mem p hl w).mpr hw')
      rw [(h.seen hl hd hs).2.2.1] at hP
      cases hP
  | load p va =>
    obtain ⟨hp, hf⟩ := hrun hs ha
    exact haccess hp hf (huint va) he
  | store p va b =>
    obtain ⟨hp, hf⟩ := hrun hs ha
    exact haccess hp hf (huint va) he
  | sbrk p n =>
    obtain ⟨hp, -⟩ := hrun hs ha
    have hl := live_of_running hp
    obtain ⟨d, hd, ⟨-, v, hge, hv, hP⟩ | ⟨-, hover⟩⟩ := he
    · rw [h.tight p d hl hd v hge hv] at hP
      cases hP
    · exact absurd hover (Pgdir.not_overlaps (h.inv.of_live hl hd).2.1)
  | exit p =>
    obtain ⟨hp, hf⟩ := hrun hs ha
    exact absurd he.2 (Spaces.exit_ne hf)
  | sched | yield | wait => exact he.elim
  | mmap | exec | kalloc | kfree => cases ha

/-- Every operation does what it should, after one fault at most, or memory has run out. -/
theorem step_spaces (h : Ok k) (hw : k.spaces.Whole) {op : Op} {r : Result} {a' : Spaces}
    (ha : k.spaces.step op = some (r, a')) :
    wp (step tree op) (fun res k' => Ok k' ∧ (k'.phys.oom = false →
      res.seen = r ∧ res.faults ≤ 1 ∧ k'.spaces = a')) (fun _ k' => k'.phys.oom = true) k := by
  have huint : ∀ va, uint va < 2 ^ 32 := fun va => Nat.mod_lt _ (by decide)
  obtain ⟨hseen, hfaults, -⟩ := Spaces.step_result ha
  refine wp_mono (wp_and (step_spec h op) (wp_eq _ _)) (fun res k' he => ?_)
    fun e k' he => h.stop_oom hw ha he.2 he.1
  refine ⟨he.1.ok h, fun ho => ?_⟩
  cases he.1 with
  | common hc =>
    obtain ⟨rfl, hk⟩ := hc.spaces hw ho ha
    exact ⟨hseen, by omega, hk⟩
  | @fork p d _ _ hp hd hf =>
    obtain ⟨rfl, hk⟩ := hf.spaces (live_of_running hp) hd CopyEffect.shows ho (Spaces.of_running hp ha)
    exact ⟨hseen, by omega, hk⟩
  | load hp he => exact he.load_spaces h (live_of_running hp) (huint _) (Spaces.of_running hp ha)
  | store hp he => exact he.store_spaces h (live_of_running hp) (huint _) (Spaces.of_running hp ha)
  | mmap => cases ha

end System

end OsLabs.Cow
