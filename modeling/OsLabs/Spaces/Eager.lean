import OsLabs.Spaces.Trim
import OsLabs.Eager.Vm

/-!
# The kernel without tricks keeps private address spaces

The unmodified tree copies every page at `fork`, and each page of a process has a frame of its own.

* `PlainOk`: no page beyond the end of a process is present, and every present page is writable;
  all reachable states have such address spaces (`plain_of_reachable`);
* `step_spaces`: an operation does what `Spaces.step` says, or memory has run out, and no operation
  stops the kernel.
-/

namespace OsLabs.Eager

open Xv6 StateError Ledger
open Base (Kmem)

/-- An address space of this tree, with its end and its rights. -/
structure PlainOk (sz : ℕ) (d : Pgdir) : Prop extends EagerOk sz d, Trim sz d

section Shape

variable {sz : ℕ} {d d' : Pgdir}

theorem shape_plain [Layout] : Shape Kmem PlainOk where
  bounded h := .of_le h.small.1
  flush h := ⟨shape_eager.flush h.toEagerOk, h.tight, h.writable⟩
  image hsz hi := ⟨shape_eager.image hsz hi, .image hi⟩
  sbrk h he := ⟨h.toEagerOk.sbrk he, h.toTrim.sbrk he⟩

/-- The copy for a child. -/
theorem PlainOk.child {m : ℕ → Page} {c₀ c : Pgdir} {s : Phys Kmem} (h : PlainOk sz d)
    (hz : ∀ w < UPAGES, c₀.ent w = Pte.zero) (hker : c₀.KernelOk)
    (hc : Lazy.Child d m c₀ (pages sz) s c) : PlainOk sz c :=
  ⟨h.toEagerOk.child hz hker hc, h.toTrim.child hz hc⟩

end Shape

section Copy

variable [Layout] {r : Ledger ℕ} {s s' : Phys Kmem} {d : Pgdir} {sz : ℕ}

/-- `copyuvm` leaves the parent alone and makes a child that shows the same. -/
theorem copy_shows (hL : ∀ v, (d.ent v).LAZY = false) {res : Option Pgdir × Pgdir}
    (h : Lazy.CopyEffect d sz r s res s') (ho : s'.oom = false) :
    Keeps r s s' ∧ res.2.shows s' sz = d.shows s sz ∧
      ∃ c, res.1 = some c ∧ c.shows s' sz = d.shows s sz := by
  cases h with
  | @copied c₀ c _ hz hker hcov hc hk ho' hlen =>
    refine ⟨hk.left, d.shows_keeps hk.right fun f => ?_, c, rfl, Pgdir.shows_congr fun v hv _ => ?_⟩
    · simp only [Pgdir.holds, refs_add]
      omega
    · obtain ⟨-, hfl, hm⟩ := hc.copy v hv (hL v)
      simp only [Pte.shows, hfl, hm]
  | failed hshort hk ho' =>
    rw [ho'] at ho
    cases ho

end Copy

section System

variable [Layout] {k k' : Kernel Kmem} {p : ProcPtr} {d : Pgdir} {va v : ℕ}

theorem eager_of_plain (h : InvOf PlainOk 0 k) : InvOf EagerOk 0 k :=
  ⟨h.acct, fun q hq => by
    obtain ⟨d, f, hd, hf, hok⟩ := h.live q hq
    exact ⟨d, f, hd, hf, hok.toEagerOk⟩, h.pids⟩

/-- Every operation keeps the address spaces plain. -/
theorem Effect.plain {op : Op} {res : Result} (h : InvOf PlainOk 0 k) (he : Effect 0 k op res k') :
    InvOf PlainOk 0 k' := by
  cases he with
  | common hc => exact hc.inv shape_plain h
  | @fork p d _ _ hp hd hf =>
    have hok := (h.of_live (live_of_running hp) hd).2
    refine hf.inv h (live_of_running hp) shape_plain.flush fun r s res s' hc => ?_
    cases hc with
    | copied hz hker hcov hc hk ho hlen =>
      exact ⟨hok, fun d₂ h₂ => Option.some.inj h₂ ▸ hok.child hz hker hc⟩
    | failed => exact ⟨hok, fun d₂ h₂ => by cases h₂⟩
  | mmap => exact h
  | load hp ha => exact (ha.same (live_of_running hp)).inv h
  | store hp ha => exact (ha.same (live_of_running hp)).inv h

/-- All reachable address spaces are plain. -/
theorem plain_of_reachable {C : Kernel Kmem → Op → Result → Prop} (h : Reachable tree C k) :
    InvOf PlainOk 0 k :=
  h.induct (fun _ _ hb => hb.invOf shape_plain) fun _ op _ _ ih _ hs =>
    Effect.plain ih (of_ok (step_spec (eager_of_plain ih) op) hs)

/-- A page that is seen is present and the user's, and may be written. -/
theorem seen_of_plain (h : InvOf PlainOk 0 k) (hl : k.live p) (hd : k.pgdir p = some d)
    {pg : Page} (hs : k.spaces.mem p v = some pg) : v < pages (k.proc p).sz ∧ v < UPAGES ∧
      (d.ent v).P = true ∧ (d.ent v).U = true ∧ (d.ent v).W = true ∧
        k.phys.mem (d.ent v).ppn = pg := by
  have hok := (h.of_live hl hd).2
  rw [Kernel.spaces_mem hl hd] at hs
  obtain ⟨hv, hu, hP, hU, hm⟩ := Pgdir.shows_eq_some (hok.lazy v) hs
  exact ⟨hv, hu, hP, hU, hok.writable v hu hP, hm⟩

/-- How an operation of this kernel can stop. -/
def OpStop (k : Kernel Kmem) (op : Op) (e : Panic) : Prop :=
  match op with
  | .fork p => k.proc.first (·.state = .UNUSED) ≠ none ∧ (e = .pidOverflow ∧ k.nextpid = INT_MAX ∨
      ∃ d n, k.pgdir p = some d ∧ Lazy.CopyStop d (k.proc p).sz n e)
  | .load p va => ∃ d, k.pgdir p = some d ∧ ¬∃ e, d.allows (uint va) false e
  | .store p va _ => ∃ d, k.pgdir p = some d ∧ ¬∃ e, d.allows (uint va) true e
  | op => CommonStop k op e

theorem step_stop (h : InvOf PlainOk 0 k) (op : Op) :
    wp (step tree op) (fun _ _ => True) (fun e _ => OpStop k op e) k := by
  have hE := eager_of_plain h
  by_cases hop : op.common = true
  · refine wp_mono (common_spec tree shape_eager hE hop) (fun _ _ _ => trivial) fun e k' he => ?_
    cases op <;> first | exact he | cases hop
  have haccess : ∀ {p : ProcPtr} (va : ℕ) (w : Option UInt8), k.live p →
      wp (access tree p va w accessFuel 0) (fun _ _ => True)
        (fun _ _ => ∃ d, k.pgdir p = some d ∧ ¬∃ e, d.allows va w.isSome e) k := by
    intro p va w hl
    obtain ⟨d, -, hd, -⟩ := hE.live p hl
    exact wp_mono (@access_end_spec _ (fun _ _ => True) _ _ _ _ _ _ _ _ hd fun _ => ⟨trivial, rfl⟩)
      (fun _ _ _ => trivial) fun e _ he => ⟨d, hd, he.2.2⟩
  cases op with
  | fork p =>
    refine wp_whenRunning (fun hp => ?_) fun _ => trivial
    have hl := live_of_running hp
    obtain ⟨d, -, hd, -⟩ := hE.live p hl
    have hok := (hE.of_live hl hd).2
    have hpg := pages_le_UPAGES hok.small.1
    rw [UPAGES_eq] at hpg
    have hcopy := fun (r : Ledger ℕ) (s : Phys Kmem) (ha : Acct InRange s.kmem (r + d.holds)) =>
      @Lazy.copyuvm_spec _ r s d (k.proc p).sz (by rw [UPAGES_eq]; omega) ha
    simp only [← copyuvm_eq_lazy hok.lazy] at hcopy
    refine wp_mono (@forkWith_spec _ _ _ _ _ _ _ _ _ false _ _ _ hE hl hd hcopy) (fun _ _ _ => trivial) ?_
    rintro e k' ⟨hnp, hpid | ⟨s₁, f, -, n, -, hn⟩⟩
    · exact ⟨hnp, Or.inl hpid⟩
    · exact ⟨hnp, Or.inr ⟨d, n, hd, hn⟩⟩
  | mmap p n => exact wp_whenRunning (fun _ => trivial) fun _ => trivial
  | load p va => exact wp_whenRunning (fun hp => haccess _ _ (live_of_running hp)) fun _ => trivial
  | store p va b =>
    exact wp_whenRunning (fun hp => haccess _ _ (live_of_running hp)) fun _ => trivial
  | _ => exact absurd rfl hop

/-- No operation within what the processes are promised stops this kernel. -/
theorem not_stop (h : InvOf PlainOk 0 k) (hw : k.spaces.Whole) {op : Op} {e : Panic} {r : Result}
    {a' : Spaces} (ha : k.spaces.step op = some (r, a')) (hs : step tree op k = .error e k') :
    ¬OpStop k op e := by
  have hrun : ∀ {p : ProcPtr} {m : KM Kmem Result} {o : Option (Result × Spaces)},
      Xv6.whenRunning p m k = .error e k' → k.spaces.whenRunning p o = some (r, a') →
      (k.proc p).state = .RUNNING ∧ o = some (r, a') := fun hs h =>
    ⟨running_of_error hs, Spaces.of_running (running_of_error hs) h⟩
  have haccess : ∀ {p : ProcPtr} {va : ℕ} {α : Type} {f : Page → α} {y : α} (write : Bool),
      (k.proc p).state = .RUNNING → (k.spaces.mem p (va / 4096)).map f = some y → va < 2 ^ 32 →
      ¬∃ d, k.pgdir p = some d ∧ ¬∃ e, d.allows va write e := by
    rintro p va α f y write hp hm hva ⟨d, hd, hno⟩
    obtain ⟨pg, hs, -⟩ := Option.map_eq_some_iff.mp hm
    obtain ⟨-, -, hP, hU, hW, -⟩ := seen_of_plain h (live_of_running hp) hd hs
    refine absurd ((Pgdir.exists_allows hva rfl).mpr ?_) hno
    simp [Pte.permits, hP, hU, hW]
  have huint : ∀ va, uint va < 2 ^ 32 := fun va => Nat.mod_lt _ (by decide)
  intro he
  cases op with
  | fork p =>
    obtain ⟨hp, hf⟩ := hrun hs ha
    have hl := live_of_running hp
    obtain ⟨hnone, ⟨-, hpid⟩ | ⟨d, n, hd, w, hw', -, -, hstop⟩⟩ := he
    · exact absurd hpid (Spaces.fork_pid hf hnone)
    · -- every page below the size is seen, and so present
      obtain ⟨pg, hs⟩ := Option.ne_none_iff_exists'.mp ((hw.mem p hl w).mpr hw')
      obtain ⟨-, hu, hP, -⟩ := seen_of_plain h hl hd hs
      rcases hstop with ⟨-, hcov⟩ | ⟨-, hge, -⟩ | ⟨-, -, -, hL, -⟩
      · exact hcov (Or.inl hP)
      · omega
      · rw [(h.of_live hl hd).2.lazy w] at hL
        cases hL
  | load p va =>
    obtain ⟨hp, hf⟩ := hrun hs ha
    exact haccess false hp hf (huint va) he
  | store p va b =>
    obtain ⟨hp, hf⟩ := hrun hs ha
    exact haccess true hp hf (huint va) he
  | sbrk p n =>
    obtain ⟨hp, -⟩ := hrun hs ha
    have hl := live_of_running hp
    obtain ⟨d, hd, ⟨-, v, hge, hv, hP⟩ | ⟨-, hover⟩⟩ := he
    · rw [(h.of_live hl hd).2.tight v hge hv] at hP
      cases hP
    · exact absurd hover (Pgdir.not_overlaps (h.of_live hl hd).2.small.1)
  | exit p =>
    obtain ⟨hp, hf⟩ := hrun hs ha
    exact absurd he.2 (Spaces.exit_ne hf)
  | sched | yield | wait => exact he
  | mmap | exec | kalloc | kfree => cases ha

/-- Every operation does what it should, without a fault, or memory has run out. -/
theorem step_spaces (h : InvOf PlainOk 0 k) (hw : k.spaces.Whole) {op : Op} {r : Result}
    {a' : Spaces} (ha : k.spaces.step op = some (r, a')) :
    wp (step tree op) (fun res k' => InvOf PlainOk 0 k' ∧ (k'.phys.oom = false →
      res.seen = r ∧ res.faults = 0 ∧ k'.spaces = a')) (fun _ _ => False) k := by
  have hE := eager_of_plain h
  have huint : ∀ va, uint va < 2 ^ 32 := fun va => Nat.mod_lt _ (by decide)
  obtain ⟨hseen, hfaults, -⟩ := Spaces.step_result ha
  refine wp_mono (wp_and (step_spec hE op) (wp_and (step_stop h op) (wp_eq _ _)))
    (fun res k' he => ?_) fun e k' he => not_stop h hw ha he.2.2 he.2.1
  refine ⟨he.1.plain h, fun ho => ?_⟩
  cases he.1 with
  | common hc =>
    obtain ⟨rfl, hk⟩ := hc.spaces hw ho ha
    exact ⟨hseen, hfaults, hk⟩
  | @fork p d _ _ hp hd hf =>
    have hL := (hE.of_live (live_of_running hp) hd).2.lazy
    obtain ⟨rfl, hk⟩ := hf.spaces (live_of_running hp) hd (copy_shows hL) ho
      (Spaces.of_running hp ha)
    exact ⟨hseen, hfaults, hk⟩
  | @load p va _ _ hp he =>
    obtain ⟨d, -, hd, -⟩ := hE.live p (live_of_running hp)
    obtain ⟨pg, hs, heq⟩ := Option.map_eq_some_iff.mp (Spaces.of_running hp ha)
    obtain ⟨rfl, rfl⟩ := Prod.mk.inj heq
    obtain ⟨-, -, hP, hU, -, rfl⟩ := seen_of_plain h (live_of_running hp) hd hs
    obtain ⟨rfl, rfl⟩ := he.load_spaces (huint va) rfl hd hP hU
    exact ⟨rfl, rfl, rfl⟩
  | @store p va b _ _ hp he =>
    have hl := live_of_running hp
    obtain ⟨d, -, hd, -⟩ := hE.live p hl
    obtain ⟨pg, hs, heq⟩ := Option.map_eq_some_iff.mp (Spaces.of_running hp ha)
    obtain ⟨rfl, rfl⟩ := Prod.mk.inj heq
    obtain ⟨hvn, hu, hP, hU, hW, -⟩ := seen_of_plain h hl hd hs
    obtain ⟨rfl, -, hk⟩ := he.store_spaces (x := 0) (huint va) rfl hl hd hvn hu hP hU hW
      (h.acct.single _)
    exact ⟨rfl, rfl, hk⟩
  | mmap => cases ha

end System

end OsLabs.Eager
