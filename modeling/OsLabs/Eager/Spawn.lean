import OsLabs.Eager.Vm
import OsLabs.Lib.Relational

/-!
# `spawn` and `fork`

`spawn` of `src/xv6-public-master/proc.c` makes up to `n` children, and repeats the body of `fork`
by hand for each of them. It writes the pids of the children to an array of its caller, one at a
time, so that each child finds the array as it was filled in so far.

* `Sys` adds what `fork` copies to the kernel: the trap frame, the open files, the working directory
  and the name; `storeInt` is a store of the kernel to the memory of the process it runs for;
* `round_spec`: a round of `spawn` and the same round with `fork` leave the same state. They make
  their changes in different orders: the return value of the child is set before or after its files
  are duplicated, and its pid is stored before or after it becomes `RUNNABLE`;
* `spawn_spec`: so do the loops.
-/

namespace OsLabs.Eager

open Xv6 StateError Ledger
open Base (Kmem)

/-! ## The state -/

/-- Open files per process. -/
def NOFILE : ℕ := 16

/-- The registers saved in a trap frame: `eax` and the others. -/
structure Trapframe where
  eax : ℤ := 0
  others : List ℕ := []

/-- The kernel, and the fields of `struct proc` that `fork` copies. A `struct file` and an inode are
named by their index; `fref` and `iref` are their reference counts. A name ends at its first
zero. -/
structure Sys where
  kernel : Kernel Kmem
  tf : ProcPtr → Trapframe := fun _ => {}
  ofile : ProcPtr → Fin NOFILE → Option ℕ := fun _ _ => none
  cwd : ProcPtr → Option ℕ := fun _ => none
  name : ProcPtr → List UInt8 := fun _ => []
  fref : ℕ → ℕ := fun _ => 0
  iref : ℕ → ℕ := fun _ => 0

namespace Sys

variable (s : Sys) (p : ProcPtr)

/-- Change the slot `p`. -/
def setProc (f : Proc → Proc) : Sys :=
  { s with kernel := { s.kernel with proc := s.kernel.proc.set p f } }

def setTf (f : Trapframe → Trapframe) : Sys := { s with tf := Function.update s.tf p (f (s.tf p)) }

def setName (name : List UInt8) : Sys := { s with name := Function.update s.name p name }

/-- Write the byte `b` at offset `o` of the frame `f`. -/
def poke (f o : ℕ) (b : UInt8) : Sys := { s with kernel := s.kernel.poke f o b }

end Sys

/-- How the kernel can stop. -/
inductive Stop
  | kernel (e : Panic)
  /-- `filedup` -/
  | filedup
  /-- A page fault in the kernel. -/
  | trap

abbrev SM := EStateM Stop Sys

/-- Run on the kernel. -/
def onKernel {α : Type} (m : KM Kmem α) : SM α := fun s =>
  match m s.kernel with
  | .ok a k => .ok a { s with kernel := k }
  | .error e k => .error (.kernel e) { s with kernel := k }

theorem wp_onKernel {α : Type} {m : KM Kmem α} {Q : α → Sys → Prop} {E : Stop → Sys → Prop}
    {s : Sys} : wp (onKernel m) Q E s ↔ wp m (fun a k => Q a { s with kernel := k })
      (fun e k => E (.kernel e) { s with kernel := k }) s.kernel := by
  unfold wp onKernel
  cases m s.kernel <;> rfl

/-! ## The code -/

section Code

variable [Layout]

/-- A store of the kernel, through the page table of the running process; the kernel may write to
pages that are present and writable. -/
def storeByte (cur : ProcPtr) (va : ℕ) (b : UInt8) : SM Unit := do
  match (← get).kernel.pgdir cur with
  | none => throw .trap
  | some d =>
    match (d.find va).filter fun e => e.P && e.W with
    | none => throw .trap
    | some e => modify fun s => s.poke e.ppn (va % PGSIZE) b

/-- The bytes of an `int`. -/
def intBytes (v : ℤ) : List UInt8 :=
  (List.range 4).map fun i => UInt8.ofNat ((v % 2 ^ 32).toNat / 256 ^ i)

def storeBytes (cur : ProcPtr) : ℕ → List UInt8 → SM Unit
  | _, [] => return ()
  | va, b :: bs => do
    storeByte cur va b
    storeBytes cur (uint (va + 1)) bs

def storeInt (cur : ProcPtr) (va : ℕ) (v : ℤ) : SM Unit := storeBytes cur va (intBytes v)

/-- Increment the reference count of the file `f`. -/
def filedup (f : ℕ) : SM ℕ := do
  if (← get).fref f < 1 then throw .filedup
  else do
    modify fun s => { s with fref := Function.update s.fref f (s.fref f + 1) }
    return f

/-- Increment the reference count of the inode. -/
def idup (ip : Option ℕ) : SM (Option ℕ) := do
  match ip with
  | none => throw (.kernel .nullDeref)
  | some i => do
    modify fun s => { s with iref := Function.update s.iref i (s.iref i + 1) }
    return some i

/-- The loop over the open files. -/
def dupFiles (cur np : ProcPtr) : List (Fin NOFILE) → SM Unit
  | [] => return ()
  | i :: is => do
    match (← get).ofile cur i with
    | none => dupFiles cur np is
    | some f => do
      let f ← filedup f
      modify fun s => { s with
        ofile := Function.update s.ofile np (Function.update (s.ofile np) i (some f)) }
      dupFiles cur np is

def dupCwd (cur np : ProcPtr) : SM Unit := do
  let ip ← idup ((← get).cwd cur)
  modify fun s => { s with cwd := Function.update s.cwd np ip }

/-- Copy a name into an array of 16 bytes. -/
def safestrcpy (t : List UInt8) : List UInt8 := (t.takeWhile (· ≠ 0)).take 15

/-- `copyuvm` for a child of `cur`. -/
def copyFor (cur np : ProcPtr) : SM (Option Pgdir) := do
  let d ← onKernel (getPgdir cur)
  let sz := ((← get).kernel.proc cur).sz
  let r ← onKernel (onPhys (copyuvm d sz))
  onKernel (setPgdir np r.1)
  return r.1

/-- Give back a slot when the address space could not be copied. -/
def unalloc (np : ProcPtr) : SM Unit := onKernel do
  kfreeKstack np
  setKstack np none
  setProc np fun q => { q with state := .UNUSED }

/-- Give `np` the open files, the working directory and the name of `cur`. -/
def dupRest (cur np : ProcPtr) : SM Unit := do
  dupFiles cur np (List.finRange NOFILE)
  dupCwd cur np
  modify fun s => s.setName np (safestrcpy (s.name cur))

/-- The rest of `fork`, when the child has its address space. -/
def forkChild (cur np : ProcPtr) : SM ℤ := do
  modify fun s => s.setProc np fun q => { q with sz := (s.kernel.proc cur).sz, parent := cur }
  modify fun s => s.setTf np fun _ => s.tf cur
  modify fun s => s.setTf np fun tf => { tf with eax := 0 }
  dupRest cur np
  let s ← get
  let pid : ℤ := (s.kernel.proc np).pid
  modify fun s => s.setProc np fun q => { q with state := .RUNNABLE }
  return pid

/-- Create a new process copying `cur`. -/
def fork (cur : ProcPtr) : SM ℤ := do
  match ← onKernel allocproc with
  | none => return -1
  | some np => do
    match ← copyFor cur np with
    | none => do
      unalloc np
      return -1
    | some _ => forkChild cur np

/-- The rest of a round of `spawn`, when the child has its address space. -/
def spawnChild (cur np : ProcPtr) (va : ℕ) : SM Unit := do
  modify fun s => s.setProc np fun q => { q with sz := (s.kernel.proc cur).sz, parent := cur }
  modify fun s => s.setTf np fun _ => s.tf cur
  dupRest cur np
  modify fun s => s.setTf np fun tf => { tf with eax := 0 }
  let s ← get
  storeInt cur va (s.kernel.proc np).pid
  modify fun s => s.setProc np fun q => { q with state := .RUNNABLE }

/-- A round of the loop of `spawn`, for the entry of the array at `va`; whether it has made a
child. -/
def spawnRound (cur : ProcPtr) (va : ℕ) : SM Bool := do
  storeInt cur va (-1)
  match ← onKernel allocproc with
  | none => return false
  | some np => do
    match ← copyFor cur np with
    | none => do
      unalloc np
      return false
    | some _ => do
      spawnChild cur np va
      return true

/-- The loop of `spawn`, with the number of rounds left. -/
def spawnLoop (cur : ProcPtr) (pids : ℕ) : ℕ → ℕ → ℤ → SM ℤ
  | 0, _, allocated => return allocated
  | left + 1, j, allocated => do
    if ← spawnRound cur (uint (pids + 4 * j)) then spawnLoop cur pids left (j + 1) (allocated + 1)
    else spawnLoop cur pids left (j + 1) allocated

/-- Create up to `n` processes copying `cur`, and store their pids from `pids` on. -/
def spawn (cur : ProcPtr) (n : ℤ) (pids : ℕ) : SM ℤ := do
  let allocated ← spawnLoop cur pids n.toNat 0 0
  if allocated = 0 then return -1 else return allocated

/-- A round of a loop of `fork`, with what `fork` returns. -/
def forkRound (cur : ProcPtr) (va : ℕ) : SM ℤ := do
  storeInt cur va (-1)
  let r ← fork cur
  if r > 0 then do
    storeInt cur va r
    return r
  else return r

/-- `for (j = 0; j < n; j++) { pids[j] = -1; r = fork(); if (r > 0) pids[j] = r; }`, with the number
of rounds left. -/
def forkLoop (cur : ProcPtr) (pids : ℕ) : ℕ → ℕ → SM Unit
  | 0, _ => return ()
  | left + 1, j => do
    let _ ← forkRound cur (uint (pids + 4 * j))
    forkLoop cur pids left (j + 1)

def forks (cur : ProcPtr) (n : ℤ) (pids : ℕ) : SM Unit := forkLoop cur pids n.toNat 0

end Code

/-! ## What the parts leave alone -/

/-- The pids, and the next one, are the same. -/
def SamePids (s s' : Sys) : Prop :=
  s'.kernel.nextpid = s.kernel.nextpid ∧ ∀ q, (s'.kernel.proc q).pid = (s.kernel.proc q).pid

section Frames

variable {s s' : Sys}

theorem SamePids.refl (s : Sys) : SamePids s s := ⟨rfl, fun _ => rfl⟩

theorem SamePids.trans {s'' : Sys} (h : SamePids s s') (h' : SamePids s' s'') : SamePids s s'' :=
  ⟨h'.1.trans h.1, fun q => (h'.2 q).trans (h.2 q)⟩

theorem samePids_setProc (s : Sys) (p : ProcPtr) {f : Proc → Proc}
    (hf : (f (s.kernel.proc p)).pid = (s.kernel.proc p).pid) : SamePids s (s.setProc p f) := by
  refine ⟨rfl, fun q => ?_⟩
  change (s.kernel.proc.set p f q).pid = _
  rw [Table.set_apply]
  split
  · rename_i hq
    rw [hq, hf]
  · rfl

theorem storeByte_pids (cur : ProcPtr) (va : ℕ) (b : UInt8) (s : Sys) :
    wp (storeByte cur va b) (fun _ s' => SamePids s s') (fun _ _ => True) s := by
  unfold storeByte
  rw [wp_bind, wp_get]
  cases s.kernel.pgdir cur with
  | none => exact trivial
  | some d =>
    dsimp only
    cases (d.find va).filter fun e => e.P && e.W with
    | none => exact trivial
    | some e => exact .refl s

theorem storeBytes_pids (cur : ProcPtr) (bs : List UInt8) : ∀ (va : ℕ) (s : Sys),
    wp (storeBytes cur va bs) (fun _ s' => SamePids s s') (fun _ _ => True) s := by
  induction bs with
  | nil => exact fun _ s => .refl s
  | cons b bs ih =>
    intro va s
    unfold storeBytes
    rw [wp_bind]
    refine wp_mono (storeByte_pids cur va b s) (fun _ s₁ h₁ => ?_) fun _ _ _ => trivial
    exact wp_post (ih _ s₁) fun _ _ h₂ => h₁.trans h₂

theorem storeInt_pids (cur : ProcPtr) (va : ℕ) (v : ℤ) (s : Sys) :
    wp (storeInt cur va v) (fun _ s' => SamePids s s') (fun _ _ => True) s :=
  storeBytes_pids cur _ va s

/-- `allocproc` hands out the next pid. -/
theorem allocproc_pids [Layout] (h : 0 < s.kernel.nextpid) :
    wp (onKernel allocproc) (fun r s' => 0 < s'.kernel.nextpid ∧
      ∀ np, r = some np → 0 < (s'.kernel.proc np).pid) (fun _ _ => True) s := by
  rw [wp_onKernel]
  unfold allocproc
  rw [wp_bind, wp_get]
  cases hf : s.kernel.proc.first (·.state = .UNUSED) with
  | none => exact ⟨h, fun _ hn => by cases hn⟩
  | some p =>
    dsimp only
    by_cases hpid : s.kernel.nextpid = INT_MAX
    · rw [if_pos hpid]
      exact trivial
    · rw [if_neg hpid]
      simp only [wp_bind, wp_set, wp_onPhys]
      refine wp_mono (wp_eq _ _) (fun r t _ => ?_) fun _ _ _ => trivial
      cases r with
      | none => exact ⟨Nat.succ_pos _, fun _ hn => by cases hn⟩
      | some f =>
        refine ⟨Nat.succ_pos _, fun np hn => ?_⟩
        obtain rfl := Option.some.inj hn
        change 0 < (s.kernel.proc.set p _ p).pid
        rw [Table.set_self]
        exact h

theorem copyFor_pids [Layout] (cur np : ProcPtr) (s : Sys) :
    wp (copyFor cur np) (fun _ s' => SamePids s s') (fun _ _ => True) s := by
  unfold copyFor
  simp only [wp_bind, wp_onKernel, wp_get]
  unfold getPgdir
  simp only [wp_bind, wp_get]
  cases s.kernel.pgdir cur with
  | none => exact trivial
  | some d =>
    simp only [wp_pure, wp_onPhys, wp_setPgdir]
    exact wp_mono (wp_eq _ _) (fun _ _ _ => .refl s) fun _ _ _ => trivial

theorem unalloc_pids [Layout] (np : ProcPtr) (s : Sys) :
    wp (unalloc np) (fun _ s' => SamePids s s') (fun _ _ => True) s := by
  unfold unalloc kfreeKstack
  simp only [wp_onKernel, wp_bind, wp_get]
  cases s.kernel.kstack np with
  | none => exact trivial
  | some f =>
    simp only [wp_onPhys, wp_setKstack, wp_setProc]
    refine wp_mono (wp_eq _ _) (fun _ _ _ => ?_) fun _ _ _ => trivial
    exact samePids_setProc s np rfl

theorem dupFiles_kernel (cur np : ProcPtr) (is : List (Fin NOFILE)) : ∀ s : Sys,
    wp (dupFiles cur np is) (fun _ s' => s'.kernel = s.kernel) (fun _ _ => True) s := by
  induction is with
  | nil => exact fun _ => rfl
  | cons i is ih =>
    intro s
    unfold dupFiles filedup
    rw [wp_bind, wp_get]
    cases s.ofile cur i with
    | none => exact ih s
    | some f =>
      simp only [wp_bind, wp_get, wp_ite, wp_throw, wp_modify, wp_pure]
      exact ⟨fun _ => trivial, fun _ => ih _⟩

theorem dupCwd_kernel (cur np : ProcPtr) (s : Sys) :
    wp (dupCwd cur np) (fun _ s' => s'.kernel = s.kernel) (fun _ _ => True) s := by
  unfold dupCwd idup
  simp only [wp_bind, wp_get]
  cases s.cwd cur with
  | none => exact trivial
  | some i => rfl

theorem dupRest_kernel (cur np : ProcPtr) (s : Sys) :
    wp (dupRest cur np) (fun _ s' => s'.kernel = s.kernel) (fun _ _ => True) s := by
  unfold dupRest
  simp only [wp_bind, wp_modify]
  refine wp_mono (dupFiles_kernel cur np _ s) (fun _ s₁ h₁ => ?_) fun _ _ _ => trivial
  exact wp_post (dupCwd_kernel cur np s₁) fun _ _ h₂ => h₂.trans h₁

end Frames

/-! ## Changes made earlier or later -/

section Order

variable {cur : ProcPtr}

/-- The return value of the child can be set before or after its files are duplicated. -/
theorem passes_dupFiles (np p : ProcPtr) (f : Trapframe → Trapframe) (is : List (Fin NOFILE)) :
    Passes (fun s => s.setTf p f) (dupFiles cur np is) := by
  induction is with
  | nil => exact passes_pure _ _
  | cons i is ih =>
    unfold dupFiles
    refine passes_get_bind (fun s => ?_) fun s => rfl
    cases s.ofile cur i with
    | none => exact ih
    | some g =>
      refine Passes.bind ?_ fun _ => Passes.bind (passes_modify fun _ => rfl) fun _ => ih
      unfold filedup
      refine passes_get_bind (fun s => ?_) fun s => rfl
      split
      · exact passes_throw _ _
      · exact Passes.bind (passes_modify fun _ => rfl) fun _ => passes_pure _ _

theorem passes_dupCwd (np p : ProcPtr) (f : Trapframe → Trapframe) :
    Passes (fun s => s.setTf p f) (dupCwd cur np) := by
  unfold dupCwd
  refine passes_get_bind (fun s => ?_) fun s => rfl
  refine Passes.bind ?_ fun _ => passes_modify fun _ => rfl
  unfold idup
  cases s.cwd cur with
  | none => exact passes_throw _ _
  | some i => exact Passes.bind (passes_modify fun _ => rfl) fun _ => passes_pure _ _

theorem passes_dupRest (np p : ProcPtr) (f : Trapframe → Trapframe) :
    Passes (fun s => s.setTf p f) (dupRest cur np) :=
  (passes_dupFiles np p f _).bind fun _ => (passes_dupCwd np p f).bind fun _ =>
    passes_modify fun _ => rfl

/-- The child can be made `RUNNABLE` before or after its pid is stored. -/
theorem passes_storeInt (p : ProcPtr) (f : Proc → Proc) (va : ℕ) (v : ℤ) :
    Passes (fun s => s.setProc p f) (storeInt cur va v) := by
  unfold storeInt
  generalize intBytes v = bs
  induction bs generalizing va with
  | nil => exact passes_pure _ _
  | cons b bs ih =>
    unfold storeBytes
    refine Passes.bind ?_ fun _ => ih _
    unfold storeByte
    refine passes_get_bind (fun s => ?_) fun s => rfl
    cases s.kernel.pgdir cur with
    | none => exact passes_throw _ _
    | some d =>
      dsimp only
      cases (d.find va).filter fun e => e.P && e.W with
      | none => exact passes_throw _ _
      | some e => exact passes_modify fun _ => rfl

end Order

/-! ## A round -/

section Round

variable [Layout] {s : Sys} {cur np : ProcPtr} {va : ℕ}

omit [Layout] in
/-- The rest of a round in the order of `fork` and in the order of `spawn`. -/
theorem child_spec (hn : 0 < s.kernel.nextpid) (hp : 0 < (s.kernel.proc np).pid) :
    both (forkChild cur np >>= fun r => if r > 0 then (storeInt cur va r >>= fun _ => return r)
        else return r)
      (spawnChild cur np va >>= fun _ => return true)
      (fun r s' b t' => t' = s' ∧ 0 < s'.kernel.nextpid ∧ b = decide (r > 0)) s s := by
  have hkeep : ∀ {s₁ s₂ : Sys}, 0 < s₁.kernel.nextpid ∧ 0 < (s₁.kernel.proc np).pid →
      SamePids s₁ s₂ → 0 < s₂.kernel.nextpid ∧ 0 < (s₂.kernel.proc np).pid := fun h hs => by
    rwa [hs.1, hs.2]
  have hmod : ∀ {f : Sys → Sys} {s₁ : Sys}, SamePids s₁ (f s₁) →
      wp (modify f : SM Unit) (fun _ s₂ => SamePids s₁ s₂) (fun _ _ => True) s₁ := fun h => h
  unfold forkChild spawnChild
  simp only [bind_assoc]
  refine both_bind_same (hmod (samePids_setProc s np rfl)) fun _ s₁ h₁ => ?_
  refine both_bind_same (hmod (.refl s₁)) fun _ s₂ h₂ => ?_
  have hs₂ := hkeep (hkeep ⟨hn, hp⟩ h₁) h₂
  refine both_pass (passes_dupRest np np _) (dupRest_kernel cur np s₂) fun _ s₃ h₃ => ?_
  rw [← h₃] at hs₂
  refine both_get ?_
  have hpos : ((s₃.kernel.proc np).pid : ℤ) > 0 := Int.natCast_pos.mpr hs₂.2
  change both (modify _ >>= fun _ => (if ((s₃.kernel.proc np).pid : ℤ) > 0 then _ else _)) _ _ _ _
  rw [if_pos hpos]
  refine both_pass (passes_storeInt np _ va _) (storeInt_pids cur va _ _) fun _ s₄ h₄ => ?_
  exact ⟨rfl, h₄.1 ▸ hs₂.1, (decide_eq_true hpos).symm⟩

/-- A round with `fork` and a round of `spawn`. -/
theorem round_spec (h : 0 < s.kernel.nextpid) :
    both (forkRound cur va) (spawnRound cur va)
      (fun r s' b t' => t' = s' ∧ 0 < s'.kernel.nextpid ∧ b = decide (r > 0)) s s := by
  unfold forkRound spawnRound
  refine both_bind_same (storeInt_pids cur va (-1) s) fun _ s₁ h₁ => ?_
  rw [← h₁.1] at h
  unfold fork
  rw [bind_assoc]
  refine both_bind_same (allocproc_pids h) fun o s₂ h₂ => ?_
  cases o with
  | none => exact ⟨rfl, h₂.1, rfl⟩
  | some np =>
    dsimp only
    rw [bind_assoc]
    refine both_bind_same (copyFor_pids cur np s₂) fun o s₃ h₃ => ?_
    have hn : 0 < s₃.kernel.nextpid := h₃.1 ▸ h₂.1
    have hp : 0 < (s₃.kernel.proc np).pid := by
      rw [h₃.2]
      exact h₂.2 np rfl
    cases o with
    | none =>
      dsimp only
      rw [bind_assoc]
      refine both_bind_same (unalloc_pids np s₃) fun _ s₄ h₄ => ?_
      exact ⟨rfl, h₄.1 ▸ hn, rfl⟩
    | some d => exact child_spec hn hp

theorem loop_spec (cur : ProcPtr) (pids left : ℕ) : ∀ (j : ℕ) (allocated : ℤ) (s : Sys),
    0 < s.kernel.nextpid → both (forkLoop cur pids left j) (spawnLoop cur pids left j allocated)
      (fun _ s' _ t' => t' = s') s s := by
  induction left with
  | zero => exact fun _ _ _ _ => rfl
  | succ left ih =>
    intro j allocated s h
    unfold forkLoop spawnLoop
    refine both_bind (round_spec h) ?_
    rintro r s' b t' ⟨rfl, hn, -⟩
    cases b with
    | true => exact ih _ _ t' hn
    | false => exact ih _ _ t' hn

/-- `spawn` and the loop of `fork` leave the same state, or stop for the same reason. -/
theorem spawn_spec (h : 0 < s.kernel.nextpid) (n : ℤ) (pids : ℕ) :
    both (forks cur n pids) (spawn cur n pids) (fun _ s' _ t' => t' = s') s s := by
  unfold forks spawn
  rw [← bind_pure (forkLoop cur pids _ _)]
  refine both_bind (loop_spec cur pids _ 0 0 s h) ?_
  rintro _ s' b t' rfl
  by_cases hb : b = 0
  · rw [if_pos hb]
    exact rfl
  · rw [if_neg hb]
    exact rfl

end Round

end OsLabs.Eager
