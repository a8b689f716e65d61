import OsLabs.Cow.Sharing
import OsLabs.Xv6.Census

/-!
# The reference counts are right

In every reachable state of the copy-on-write kernel the count of a frame is the number of page
table entries that map it, or one for a frame of the kernel's own, and the free list holds exactly
the frames with count 0. The two panics of `kalloc.c` that check the counts are never reached.
-/

namespace OsLabs.Cow

open Xv6 StateError Ledger

section Refcount

variable [Layout]

/-- The number of users of a frame: the entries that map it, and the kernel where it holds it. -/
noncomputable def users (k : Kernel Kmem) (f : ℕ) : ℕ :=
  open Classical in k.mapCount f + if k.owns f then 1 else 0

theorem Ok.refs_total {k : Kernel Kmem} (h : Ok k) (f : ℕ) : refs (0 + k.total) f = users k f := by
  have hx := h.inv.acct.exact.excl_alone f
  rw [zero_add] at hx ⊢
  rw [refs, k.total_fst, users]
  by_cases ho : (k.total f).2 = 0
  · rw [if_neg fun e => Kernel.total_snd_ne_zero.mpr e ho, ho]
  · rw [if_pos (Kernel.total_snd_ne_zero.mp ho), hx ho]

/-- The panics of the allocator that check the counts. -/
def IsRefcountPanic (e : Panic) : Prop := e = .kfreeWTF ∨ e = .kallocRefcount

theorem not_isRefcountPanic_of_stop {k k' : Kernel Kmem} {op : Op} {e : Panic}
    (h : Stop k op e k') : ¬IsRefcountPanic e := by
  rintro (rfl | rfl) <;> cases op <;> simp [Stop, AccessStop, CommonStop, SbrkStop] at h

/-- In every reachable state, for every frame the kernel manages: the count is the number of
present entries below `KERNBASE` that map the frame, plus one if the kernel holds it; the frame is
on the free list once where this is 0, and not at all otherwise. No operation, and not boot
itself, stops in the panics of the allocator. -/
theorem refcount_eq_users {C : Kernel Kmem → Op → Result → Prop} {k : Kernel Kmem}
    (h : Reachable tree C k) :
    (∀ f, InRange f → k.phys.kmem.refcount_list f = users k f ∧
      k.phys.kmem.freelist.count f = if users k f = 0 then 1 else 0) ∧
    (∀ op e k', step tree op k = .error e k' → ¬IsRefcountPanic e) ∧
    ∀ M e k', boot M (powerOn M : Kernel Kmem) = .error e k' → ¬IsRefcountPanic e := by
  have hok := ok_of_reachable h
  refine ⟨fun f hf => ?_, fun op e k' he => ?_, fun M e k' he => ?_⟩
  · rw [← hok.refs_total]
    exact ⟨hok.inv.acct.count f, hok.inv.acct.exact.count_free hf⟩
  · exact not_isRefcountPanic_of_stop (of_error (step_spec hok op) he)
  · obtain ⟨rfl | rfl, -⟩ := of_error (boot_spec M) he
    · rintro (h | h) <;> cases h
    · rintro (h | h) <;> cases h

end Refcount

/-- So it is after `init` has forked, and written to a page that was shared until then. -/
theorem refcount_eq_users_written : ∃ (_ : Layout) (k k' : Kernel Kmem) (d d' : Pgdir),
    Reachable tree anyOp k ∧ k.pgdir initSlot = some d ∧
      1 < k.phys.kmem.refcount_list (d.ent 0).ppn ∧
      step tree (.store initSlot 0 0x41) k = .ok (.written 1) k' ∧
      k'.pgdir initSlot = some d' ∧ (d'.ent 0).ppn ≠ (d.ent 0).ppn ∧
      ∀ f, InRange f → k'.phys.kmem.refcount_list f = users k' f ∧
        k'.phys.kmem.freelist.count f = if users k' f = 0 then 1 else 0 := by
  let L := sampleLayout
  obtain ⟨k, k', d, d', hr, -, -, hd, hsh, hs, hd', hne⟩ :=
    exists_written (C := anyOp) fun _ _ _ _ => trivial
  exact ⟨L, k, k', d, d', hr, hd, hsh, hs, hd', hne,
    (refcount_eq_users (C := anyOp) (.step hr hs trivial)).1⟩

end OsLabs.Cow
