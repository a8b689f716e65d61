import OsLabs.Lib.StateError
import OsLabs.Lib.Ledger
import OsLabs.Xv6.Layout

/-!
# The page allocator as the rest of the kernel sees it

Every tree of the repository has its own `kalloc.c`; the code above it calls `kalloc` and `kfree`
only. `Kalloc κ` is that interface for an allocator whose own data (`kmem`) has type `κ`, on the
physical memory `Phys κ`. `LawfulKalloc` says what the callers rely on, in terms of a ledger of
the allocated frames: `kalloc` hands out a frame nobody holds, `kfree` takes back one claim and
may overwrite the frame only when it was the last one, and neither panics.

`Keeps r s s'` is the frame condition of all later specifications: the contents of the frames
held in the ledger `r` are the same in `s` and `s'`.
-/

namespace OsLabs.Xv6

open StateError Ledger

/-- The ways the kernel can stop: the calls of `panic`, and four kinds of undefined or
non-terminating behaviour. -/
inductive Panic
  /-- `kfree` -/
  | kfree
  /-- `kfree: WTF` -/
  | kfreeWTF
  /-- `kalloc: refcount of a free page is not 0` -/
  | kallocRefcount
  /-- `incrementReferenceCount` -/
  | incrementReferenceCount
  /-- `decrementReferenceCount` -/
  | decrementReferenceCount
  /-- `remap` -/
  | remap
  /-- `PHYSTOP too high` -/
  | phystop
  /-- `inituvm: more than a page` -/
  | inituvm
  /-- `userinit: out of memory?` -/
  | userinit
  /-- `loaduvm: addr must be page aligned` -/
  | loaduvmAligned
  /-- `loaduvm: address should exist` -/
  | loaduvmExist
  /-- `freevm: no pgdir` -/
  | freevm
  /-- `clearpteu` -/
  | clearpteu
  /-- `copyuvm: pte should exist` -/
  | copyuvmExist
  /-- `copyuvm: page not present` -/
  | copyuvmPresent
  /-- `switchuvm: no kstack` -/
  | switchuvmKstack
  /-- `switchuvm: no pgdir` -/
  | switchuvmPgdir
  /-- `init exiting` -/
  | initExiting
  /-- A null pointer is dereferenced. -/
  | nullDeref
  /-- A page of the kernel's own image has been marked as not present. -/
  | kernelUnmapped
  /-- `nextpid++` overflows an `int`. -/
  | pidOverflow
  /-- A loop does not end. -/
  | hang
  deriving DecidableEq

/-- The contents of a frame, by offset. -/
abbrev Page := ℕ → UInt8

/-- `memset(v, 0, PGSIZE)` -/
def zeroPage : Page := fun _ => 0

/-- `memset(v, 1, PGSIZE)`, the junk of `kfree`. -/
def junkPage : Page := fun _ => 1

/-- Physical memory: the allocator's data, the contents of the frames, and, as a ghost, whether
`kalloc` has ever returned 0. -/
structure Phys (κ : Type) where
  kmem : κ
  mem : ℕ → Page
  oom : Bool := false

/-- Write the contents of frame `f`. -/
def Phys.fill {κ : Type} (s : Phys κ) (f : ℕ) (p : Page) : Phys κ :=
  { s with mem := Function.update s.mem f p }

section Fill

variable {κ : Type} (s : Phys κ) (f : ℕ) (p : Page)

@[simp] theorem Phys.fill_kmem : (s.fill f p).kmem = s.kmem := rfl

@[simp] theorem Phys.fill_oom : (s.fill f p).oom = s.oom := rfl

@[simp] theorem Phys.fill_mem_self : (s.fill f p).mem f = p := by simp [fill]

theorem Phys.fill_mem_ne {g : ℕ} (h : g ≠ f) : (s.fill f p).mem g = s.mem g := by
  simp [fill, h]

end Fill

/-- The two entry points of `kalloc.c`. -/
class Kalloc (κ : Type) where
  /-- Allocate one page of physical memory; `none` is the null pointer. -/
  kalloc : EStateM Panic (Phys κ) (Option ℕ)
  /-- Free the page of physical memory in frame `f`. -/
  kfree : ℕ → EStateM Panic (Phys κ) Unit
  /-- The frames on the free list, first one first. -/
  freelist : κ → List ℕ
  /-- The zeroed data the kernel starts with. -/
  init : κ

export Kalloc (kalloc kfree)

/-- The contents of the frames held in `r` stay. -/
def Keeps {κ : Type} (r : Ledger ℕ) (s s' : Phys κ) : Prop := ∀ f, r f ≠ 0 → s'.mem f = s.mem f

namespace Keeps

variable {κ : Type} {r r' : Ledger ℕ} {s s' s'' : Phys κ}

theorem refl (r : Ledger ℕ) (s : Phys κ) : Keeps r s s := fun _ _ => rfl

theorem trans (h : Keeps r s s') (h' : Keeps r s' s'') : Keeps r s s'' :=
  fun f hf => (h' f hf).trans (h f hf)

theorem mono (h : Keeps r s s') (hr : ∀ f, r' f ≠ 0 → r f ≠ 0) : Keeps r' s s' :=
  fun f hf => h f (hr f hf)

theorem of_refs_le (h : Keeps r s s') (hr : ∀ f, refs r' f ≤ refs r f) : Keeps r' s s' :=
  h.mono fun f => ne_zero_of_le (hr f)

theorem of_mem_eq (h : s'.mem = s.mem) : Keeps r s s' := fun f _ => by rw [h]

theorem left (h : Keeps (r + r') s s') : Keeps r s s' :=
  h.mono fun f hf hz => hf (by
    rw [Pi.add_apply, add_eq_zero] at hz
    exact hz.1)

theorem right (h : Keeps (r + r') s s') : Keeps r' s s' :=
  h.mono fun f hf hz => hf (by
    rw [Pi.add_apply, add_eq_zero] at hz
    exact hz.2)

/-- Writing a frame nobody in `r` holds. -/
theorem fill {f : ℕ} (p : Page) (hf : r f = 0) : Keeps r s (s.fill f p) :=
  fun _ hg => s.fill_mem_ne f p fun e => hg (e ▸ hf)

end Keeps

/-- What the callers of the allocator rely on. `Acct dom k o`: the allocator data `k`, seeded
with the frames of `dom`, agrees with the ledger `o` of allocated frames. -/
class LawfulKalloc (κ : Type) [Layout] [Kalloc κ] where
  Acct : (ℕ → Prop) → κ → Ledger ℕ → Prop
  acct_init : Acct (fun _ => False) Kalloc.init 0
  exact_of_acct {dom : ℕ → Prop} {k : κ} {o : Ledger ℕ} :
    Acct dom k o → Exact dom (Kalloc.freelist k) o
  inRange {dom : ℕ → Prop} {k : κ} {o : Ledger ℕ} {f : ℕ} : Acct dom k o → dom f → InRange f
  kalloc_spec {dom : ℕ → Prop} {s : Phys κ} {o : Ledger ℕ} : Acct dom s.kmem o →
    wp kalloc (fun r s' => match r with
      | none => s' = { s with oom := true } ∧ Kalloc.freelist s.kmem = []
      | some f => o f = 0 ∧ (∀ h, IsClaim f h → Acct dom s'.kmem (o + h)) ∧ s'.mem = s.mem ∧
          s'.oom = s.oom ∧ Kalloc.freelist s.kmem = f :: Kalloc.freelist s'.kmem)
      (fun _ _ => False) s
  kfree_spec {dom : ℕ → Prop} {s : Phys κ} {o h : Ledger ℕ} {f : ℕ} : IsClaim f h →
    Acct dom s.kmem (o + h) →
    wp (kfree f) (fun _ s' => Acct dom s'.kmem o ∧ Keeps o s s' ∧
      (∀ g, g ≠ f → s'.mem g = s.mem g) ∧ s'.oom = s.oom) (fun _ _ => False) s
  kfree_seed {dom : ℕ → Prop} {s : Phys κ} {o : Ledger ℕ} {f : ℕ} : Acct dom s.kmem o →
    ¬dom f → InRange f →
    wp (kfree f) (fun _ s' => Acct (fun g => dom g ∨ g = f) s'.kmem o ∧ s'.oom = s.oom ∧
      Kalloc.freelist s'.kmem = f :: Kalloc.freelist s.kmem) (fun _ _ => False) s
  kfree_out {s : Phys κ} {f : ℕ} : ¬InRange f →
    wp (kfree f) (fun _ _ => False) (fun e _ => e = .kfree) s

export LawfulKalloc (Acct)

section Derived

variable {κ : Type} [Layout] [Kalloc κ] [LawfulKalloc κ] {dom : ℕ → Prop} {k : κ} {o : Ledger ℕ}

/-- A held frame is one `kfree` accepts. -/
theorem Acct.inRange {f : ℕ} (h : Acct dom k o) (hf : o f ≠ 0) : InRange f :=
  LawfulKalloc.inRange h ((LawfulKalloc.exact_of_acct h).held_dom f hf)

end Derived

end OsLabs.Xv6
