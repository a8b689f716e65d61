import OsLabs.Xv6.Dirs

/-!
# User accesses

A user instruction that touches memory is let through by the MMU or faults. `AccessEnd` lists how
it ends when it does not fault, or faults on a page the tree's handler does not mend; what a
handler does that lets the instruction go on is the tree's own.

* `access_end_spec`: the instruction ends;
* `access_fault_spec`: the handler has mended the page, and the instruction starts again;
* `AccessEnd.inv` and the lemmas beside it: an access changes no directory and no account.
-/

namespace OsLabs.Xv6

open StateError Ledger

section Access

variable {κ : Type}
variable {kills : Pgdir → ℕ → Prop} {p : ProcPtr} {va n : ℕ} {w : Option UInt8}
variable {k k' : Kernel κ} {res : Result}

/-- Write the byte `b` at offset `o` of frame `f`. -/
def Kernel.poke (k : Kernel κ) (f o : ℕ) (b : UInt8) : Kernel κ :=
  { k with phys := k.phys.fill f (Function.update (k.phys.mem f) o b) }

/-- The table when the process `p` has been killed by a fault. -/
def Table.kill (t : Table) (p : ProcPtr) (initproc : Option ProcPtr) : Table :=
  (t.set p fun q => { q with killed := true }).exit p initproc

/-- The MMU lets the access at `va` through. -/
def Pgdir.allows (d : Pgdir) (va : ℕ) (write : Bool) (e : Pte) : Prop :=
  d.find va = some e ∧ e.permits write = true

/-- How an access at `va`, to read or to write `w`, ends after `n` faults. `kills` says on which
faults the handler kills. -/
inductive AccessEnd (kills : Pgdir → ℕ → Prop) (p : ProcPtr) (va : ℕ) (w : Option UInt8) (n : ℕ)
    (k : Kernel κ) : Result → Kernel κ → Prop
  | load {d : Pgdir} {e : Pte} (hw : w = none) (hd : k.pgdir p = some d)
      (he : d.allows va false e) :
      AccessEnd kills p va w n k (.byte (k.phys.mem e.ppn (va % PGSIZE)) n) k
  | store {d : Pgdir} {e : Pte} {b : UInt8} (hw : w = some b) (hd : k.pgdir p = some d)
      (he : d.allows va true e) :
      AccessEnd kills p va w n k (.written n) (k.poke e.ppn (va % PGSIZE) b)
  | killed {d : Pgdir} (hd : k.pgdir p = some d) (hp : ¬∃ e, d.allows va w.isSome e)
      (hk : kills d va) (hi : k.initproc ≠ some p) :
      AccessEnd kills p va w n k .killed { k with proc := k.proc.kill p k.initproc }

theorem Pgdir.allows_iff {d : Pgdir} {va v : ℕ} {write : Bool} (hva : va < 2 ^ 32)
    (hv : va / 4096 = v) {e : Pte} :
    d.allows va write e ↔ d.ent v = e ∧ e.permits write = true := by
  subst hv
  unfold allows
  by_cases hd : d.has (va / 4096 / 1024)
  · rw [Pgdir.find_of_has hva hd, Option.some_inj]
  · rw [Pgdir.find_of_not_has hva hd, Pgdir.ent_of_not_has hd]
    refine ⟨fun h => (by cases h.1), fun ⟨h, hp⟩ => ?_⟩
    subst h
    cases hp

/-- An access is possible exactly when the entry permits it. -/
theorem Pgdir.exists_allows {d : Pgdir} {va v : ℕ} {write : Bool} (hva : va < 2 ^ 32)
    (hv : va / 4096 = v) : (∃ e, d.allows va write e) ↔ (d.ent v).permits write = true := by
  simp only [Pgdir.allows_iff hva hv]
  exact ⟨fun ⟨e, he, hp⟩ => he ▸ hp, fun hp => ⟨_, rfl, hp⟩⟩

/-- The decision of the MMU. -/
theorem Pgdir.filter_permits (d : Pgdir) (va : ℕ) (write : Bool) :
    (∃ e, d.allows va write e ∧ (d.find va).filter (·.permits write) = some e) ∨
      (¬∃ e, d.allows va write e) ∧ (d.find va).filter (·.permits write) = none := by
  unfold allows
  cases hf : d.find va with
  | none => simp
  | some e =>
    by_cases he : e.permits write = true
    · exact Or.inl ⟨e, ⟨rfl, he⟩, by simp [Option.filter, he]⟩
    · refine Or.inr ⟨?_, by simp [Option.filter, he]⟩
      rintro ⟨e', h, h'⟩
      exact he (Option.some.inj h ▸ h')

/-- An access that is let through, or that the handler kills for. -/
theorem access_end_spec {T : Tree κ} {fuel : ℕ} {d : Pgdir} (hd : k.pgdir p = some d)
    (h : (¬∃ e, d.allows va w.isSome e) → kills d va ∧ T.pgflt d va = pure none) :
    wp (access T p va w (fuel + 1) n) (AccessEnd kills p va w n k)
      (fun e _ => e = .initExiting ∧ k.initproc = some p ∧ ¬∃ e, d.allows va w.isSome e) k := by
  unfold access
  simp only [wp_bind, wp_getPgdir hd]
  rcases d.filter_permits va w.isSome with ⟨e, he, hf⟩ | ⟨hno, hf⟩
  · rw [hf]
    cases w with
    | none =>
      simp only [wp_bind, wp_get, wp_pure]
      exact .load rfl hd he
    | some b =>
      simp only [wp_bind, wp_onPhys, wp_modify, wp_pure]
      exact .store rfl hd he
  · obtain ⟨hk, hpf⟩ := h hno
    rw [hf]
    simp only [trapPgflt, wp_bind, wp_getPgdir hd, hpf, wp_onPhys, wp_pure, wp_setProc, exit,
      wp_get]
    by_cases hi : k.initproc = some p
    · rw [if_pos hi]
      exact ⟨rfl, hi, hno⟩
    · rw [if_neg hi]
      simp only [wp_set, Bool.false_eq_true, if_false, wp_pure]
      exact .killed hd hno hk hi

/-- A fault that the handler mends. -/
theorem access_fault_spec {T : Tree κ} {fuel : ℕ} {d : Pgdir} {Q : Result → Kernel κ → Prop}
    {E : Panic → Kernel κ → Prop} (hd : k.pgdir p = some d) (hks : k.kstack p ≠ none)
    (hno : ¬∃ e, d.allows va w.isSome e)
    (h : wp (T.pgflt d va) (fun r s => ∃ d', r = some d' ∧
      wp (access T p va w fuel (n + 1)) Q E (k.setMem p s (k.proc p).sz d'.flush))
      (fun e s => E e { k with phys := s }) k.phys) :
    wp (access T p va w (fuel + 1) n) Q E k := by
  have hf : (d.find va).filter (·.permits w.isSome) = none := by
    refine ((d.filter_permits va w.isSome).resolve_left ?_).2
    rintro ⟨e, he, -⟩
    exact hno ⟨e, he⟩
  unfold access
  simp only [wp_bind, wp_getPgdir hd, hf, trapPgflt, wp_onPhys]
  refine wp_post h fun r s hr => ?_
  obtain ⟨d', rfl, hgo⟩ := hr
  rw [Kernel.setMem_sz_self] at hgo
  have hupd : Function.update k.pgdir p (some d') p = some d' := Function.update_self ..
  simp only [wp_bind, wp_setPgdir]
  by_cases hsw : T.switch = true
  · rw [if_pos hsw]
    simp only [wp_bind, wp_pure, if_true]
    refine (wp_switchuvm (d := d') ?_ ?_).mpr ?_
    · exact hupd
    · exact hks
    · simpa only [Function.update_idem] using hgo
  · rw [if_neg hsw]
    simp only [wp_bind, wp_pure, if_true]
    refine (wp_lcr3 (d := d') ?_).mpr ?_
    · exact hupd
    · simpa only [Function.update_idem] using hgo

/-! ## What an access leaves alone -/

/-- The slots and directories are those of `k`, up to processes that come to an end. -/
structure SameDirs (k k' : Kernel κ) : Prop where
  pgdir : k'.pgdir = k.pgdir
  kstack : k'.kstack = k.kstack
  kpgdir : k'.kpgdir = k.kpgdir
  held : k'.held = k.held
  kmem : k'.phys.kmem = k.phys.kmem
  nextpid : k'.nextpid = k.nextpid
  sz : ∀ q, (k'.proc q).sz = (k.proc q).sz
  pid : ∀ q, (k'.proc q).pid = (k.proc q).pid
  unused : ∀ q, (k'.proc q).state = .UNUSED ↔ (k.proc q).state = .UNUSED
  running : ∀ q, (k'.proc q).state = .RUNNING → (k.proc q).state = .RUNNING

theorem Table.kill_unused {t : Table} {p : ProcPtr} {i : Option ProcPtr}
    (hl : (t p).state ≠ .UNUSED) (q : ProcPtr) :
    (t.kill p i q).state = .UNUSED ↔ (t q).state = .UNUSED := by
  have hl' : (t.set p (fun q => { q with killed := true }) p).state ≠ .UNUSED := by simpa using hl
  rw [kill, Table.exit_unused _ hl']
  exact Table.set_unused hl (by simpa using hl) q

theorem AccessEnd.same (h : AccessEnd kills p va w n k res k') (hl : k.live p) :
    SameDirs k k' := by
  cases h with
  | load => exact ⟨rfl, rfl, rfl, rfl, rfl, rfl, fun _ => rfl, fun _ => rfl, fun _ => .rfl,
      fun _ h => h⟩
  | store => exact ⟨rfl, rfl, rfl, rfl, rfl, rfl, fun _ => rfl, fun _ => rfl, fun _ => .rfl,
      fun _ h => h⟩
  | killed hd hp hk hi =>
    refine ⟨rfl, rfl, rfl, rfl, rfl, rfl, fun q => ?_, fun q => ?_, Table.kill_unused hl,
      fun q hq => ?_⟩
    · rw [Table.kill, Table.exit_sz, Table.set_apply]
      split
      · rename_i hq
        rw [hq]
      · rfl
    · rw [Table.kill, Table.exit_pid, Table.set_apply]
      split
      · rename_i hq
        rw [hq]
      · rfl
    · by_cases hqp : q = p
      · rw [Table.kill, hqp, Table.exit_state_self] at hq
        cases hq
      · rcases Table.exit_state_ne (k.proc.set p fun q => { q with killed := true }) p k.initproc
          hqp with e | ⟨-, e⟩
        · rw [Table.kill, e, Table.set_ne _ _ hqp] at hq
          exact hq
        · rw [Table.kill, e] at hq
          cases hq

/-- An access that is let through ends no process and changes no directory. -/
theorem AccessEnd.of_allows (h : AccessEnd kills p va w n k res k') {d : Pgdir}
    (hd : k.pgdir p = some d) (ha : ∃ e, d.allows va w.isSome e) :
    k'.proc = k.proc ∧ k'.pgdir = k.pgdir := by
  cases h with
  | load => exact ⟨rfl, rfl⟩
  | store => exact ⟨rfl, rfl⟩
  | killed hd' hno =>
    obtain rfl := Option.some.inj (hd.symm.trans hd')
    exact absurd ha hno

/-- An access that is not let through ends the process. -/
theorem AccessEnd.eq_killed (h : AccessEnd kills p va w n k res k') {d : Pgdir}
    (hd : k.pgdir p = some d) (hno : ¬∃ e, d.allows va w.isSome e) : res = .killed := by
  cases h with
  | load hw hd' ha =>
    obtain rfl := Option.some.inj (hd.symm.trans hd')
    subst hw
    exact absurd ⟨_, ha⟩ hno
  | store hw hd' ha =>
    obtain rfl := Option.some.inj (hd.symm.trans hd')
    subst hw
    exact absurd ⟨_, ha⟩ hno
  | killed => rfl

/-- Nor does it end another process when it kills its own. -/
theorem AccessEnd.active (h : AccessEnd kills p va w n k res k') {q : ProcPtr} (hq : q ≠ p)
    (ha : k.active q) : k'.active q := by
  cases h with
  | load => exact ha
  | store => exact ha
  | killed =>
    refine Table.exit_active hq ?_
    rw [Table.set_ne _ _ hq]
    exact ha

/-- The slots in use of `k'` are among those of `k`, with the same directories and sizes, and the
ledger is the same. -/
structure SameLive (k k' : Kernel κ) : Prop where
  live : ∀ q, k'.live q → k.live q
  pgdir : ∀ q, k'.live q → k'.pgdir q = k.pgdir q
  sz : ∀ q, k'.live q → (k'.proc q).sz = (k.proc q).sz
  total : k'.total = k.total

namespace SameLive

theorem pages {ok : ℕ → Pte → Prop} {x : Ledger ℕ} (h : SameLive k k') (hp : Pages ok x k) :
    Pages ok x k' := by
  intro q d hl hd
  rw [h.total]
  exact hp q d (h.live q hl) ((h.pgdir q hl).symm.trans hd)

theorem tight (h : SameLive k k') (ht : Tight k) : Tight k' := by
  intro q d hl hd v hge
  rw [h.sz q hl] at hge
  exact ht q d (h.live q hl) ((h.pgdir q hl).symm.trans hd) v hge

theorem injective (h : SameLive k k') (hi : Injective k) : Injective k' :=
  fun q d hl hd => hi q d (h.live q hl) ((h.pgdir q hl).symm.trans hd)

/-- A failed `fork` has changed the directory of the parent only. -/
theorem unborn {np : ProcPtr} {s : Phys κ} {d : Pgdir} {pgdir : ProcPtr → Option Pgdir}
    (hl : k.live p) (hnp : (k.proc np).state = .UNUSED) (hcur : pgdir p = some d)
    (hpg : ∀ j, j ≠ p → j ≠ np → pgdir j = k.pgdir j) :
    SameLive (k.setMem p s (k.proc p).sz d) (k.unborn np s pgdir) := by
  have hlive := fun q => (@Kernel.live_unborn _ k _ s q pgdir hnp).mp
  have hne : ∀ q, (k.unborn np s pgdir).live q → q ≠ np := fun q hq e =>
    hlive q hq (by rw [e]; exact hnp)
  refine ⟨fun q hq => (Kernel.live_setMem q).mpr (hlive q hq), fun q hq => ?_, fun q hq => ?_, ?_⟩
  · rw [Kernel.setMem_sz_self]
    by_cases hqp : q = p
    · subst hqp
      simp [Kernel.unborn, hcur]
    · simp [Kernel.unborn, hqp, hpg q hqp (hne q hq)]
  · rw [Kernel.setMem_sz_self]
    simp [Kernel.unborn, Table.set_ne, hne q hq]
  · rw [Kernel.total_unborn hl hnp hcur hpg, Kernel.total_setMem hl]

end SameLive

namespace SameDirs

theorem same (h : SameDirs k k') : SameLive k k' where
  live q := mt (h.unused q).mpr
  pgdir q _ := by rw [h.pgdir]
  sz q _ := h.sz q
  total := Kernel.total_congr h.kpgdir h.held fun q => by
    simp only [Kernel.slotHolds, h.unused, h.pgdir, h.kstack]

theorem inv [Kalloc κ] [Layout] [LawfulKalloc κ] {ok : ℕ → Pgdir → Prop} {x : Ledger ℕ}
    (h : SameDirs k k') (hi : InvOf ok x k) : InvOf ok x k' := by
  refine ⟨by rw [h.same.total, h.kmem]; exact hi.acct, fun q hq => ?_, ?_⟩
  · rw [h.pgdir, h.kstack, h.sz]
    exact hi.live q (h.same.live q hq)
  · rw [h.nextpid]
    exact hi.pids.congr h.pid h.same.live

end SameDirs

end Access

end OsLabs.Xv6
