import OsLabs.Base.Parents
import Mathlib.Data.Nat.Count

/-!
# Queries by pid

`getpasize` and `whatsthestatus` of `src/xv6-public-master/proc.c` look for a pid in every slot of
the process table, whatever its state. A slot that is not in use has the pid 0, or the pid of a
child whose `fork` or `spawn` failed, and its pointer to a page directory is null or left over from
a process that has been reaped.

* `Paged` adds the pointers to the page directories to the process table under interleaving; a child
  has its directory before it has its parent;
* `countDirs_eq`: the loops of `getpasize` count the present entries below `KERNBASE`;
* `Pids`: a pid other than 0 is in one slot only, in use or not;
* `queries_exact_iff`: when the two functions do what their callers expect.
-/

namespace OsLabs.Base

open Xv6

/-! ## The code -/

/-- Entries per page table. -/
def NPTENTRIES : ℕ := 1024

/-- The inner loop of `getpasize`: the present entries of a page table, added to `count`. -/
def countTable (pgtable : PTable) (count : ℕ) : ℕ :=
  (List.range NPTENTRIES).foldl
    (fun count i => if (pgtable.pte i).P then count + 1 else count) count

/-- The outer loop of `getpasize`, over the first `n` entries of the directory. -/
def countDirs (pgdir : Pgdir) (n : ℕ) : ℕ :=
  (List.range n).foldl
    (fun count i => (pgdir.pde i).elim count fun pgtable => countTable pgtable count) 0

/-- What `getpasize` does. -/
inductive Size
  /-- It returns without reading a page directory. -/
  | ret (v : ℤ)
  /-- It follows the null pointer of the slot `p`. -/
  | null (p : ProcPtr)
  /-- It reads the page directory of the slot `p` and returns `count`. -/
  | read (p : ProcPtr) (count : ℕ)

/-- The size of the physical memory of a process in pages. -/
def getpasize (t : Table) (pgdir : ProcPtr → Option Pgdir) (pid : ℤ) : Size :=
  match t.first (fun q => (q.pid : ℤ) = pid) with
  | none => .ret (-1)
  | some p =>
    match pgdir p with
    | none => .null p
    | some d => .read p (countDirs d (NPDENTRIES / 2))

/-- The text that `whatsthestatus` prints for a state. -/
def stateText : ProcState → String
  | .UNUSED => "UNUSED"
  | .EMBRYO => "EMBRYO"
  | .SLEEPING => "SLEEPING"
  | .RUNNABLE => "RUNNABLE"
  | .RUNNING => "RUNNING"
  | .ZOMBIE => "ZOMBIE"

/-- What `whatsthestatus` does. -/
inductive Status
  /-- It reads `in_question`, which is not set. -/
  | unset
  /-- It reads the entry at index `NPROC`. -/
  | past
  /-- It prints a pid, a state and the pid of the parent, and returns the last. -/
  | ret (pid : ℕ) (state : String) (ppid : ℕ)

def whatsthestatus (t : Table) (pid : ℤ) : Status :=
  match t.first (fun q => (q.pid : ℤ) = pid) with
  | none => .unset
  | some in_question =>
    match (List.finRange NPROC).find? fun p => (t in_question).parent = some p with
    | none => .past
    | some p => .ret (t in_question).pid (stateText (t in_question).state) (t p).pid

/-! ## The process table with page directories -/

/-- The process table and the pointers to the page directories. `ready p` says that the slot `p` has
got its directory since `allocproc` took it. -/
structure Paged where
  table : State
  pgdir : ProcPtr → Option Pgdir
  ready : ProcPtr → Bool

namespace Paged

/-- After `userinit`. -/
def userinit (d : Pgdir) : Paged where
  table := Base.userinit
  pgdir := Function.update (fun _ => none) slot0 (some d)
  ready p := p = slot0

/-- The steps. The one of the process table that sets the parent of a child comes after the one
that stores its page directory. `wait` frees a directory and leaves the pointer. -/
inductive Step : Paged → Paged → Prop
  | table {s : Paged} {e : Event} {t : State} (h : Base.Step s.table e t)
      (hpc : ∀ p j np, s.table.pc p = .copyuvm j np → t.pc p = s.table.pc p) :
      Step s { s with table := t, ready := fun q => s.ready q && (t.proc q).state ≠ .UNUSED }
  /-- `np->pgdir` is set to the copy. -/
  | copyuvm {s : Paged} {p np : ProcPtr} {j : Job} (h : (s.table.proc p).state = .RUNNING)
      (hpc : s.table.pc p = .copyuvm j np) (hr : s.ready np = false) (d : Pgdir) :
      Step s { s with
        pgdir := Function.update s.pgdir np (some d)
        ready := Function.update s.ready np true }
  /-- `np->pgdir` is set to 0. -/
  | nocopy {s : Paged} {t : State} {p np : ProcPtr} {j : Job}
      (h : Base.Step s.table (.unborn np) t) (hpc : s.table.pc p = .copyuvm j np)
      (ht : t.pc p = j.next) (hr : s.ready np = false) :
      Step s { s with table := t, pgdir := Function.update s.pgdir np none }
  /-- The child gets its size and its parent. -/
  | copy {s : Paged} {t : State} {p np : ProcPtr} {j : Job} (h : Base.Step s.table .tau t)
      (hpc : s.table.pc p = .copyuvm j np) (ht : t.pc p = .publish j np)
      (hr : s.ready np = true) : Step s { s with table := t }
  /-- The contents of page directories change. -/
  | memory {s : Paged} {pgdir : ProcPtr → Option Pgdir}
      (h : ∀ q, pgdir q = none ↔ s.pgdir q = none) : Step s { s with pgdir := pgdir }

/-- The states that the steps lead to. -/
inductive Reachable : Paged → Prop
  | init (d : Pgdir) : Reachable (userinit d)
  | step {s s' : Paged} (h : Reachable s) (hs : Step s s') : Reachable s'

end Paged

/-! ## What the loops count -/

/-- A loop that counts. -/
theorem foldl_count (p : ℕ → Bool) (n c : ℕ) :
    (List.range n).foldl (fun count i => if p i then count + 1 else count) c =
      c + Nat.count (fun i => p i = true) n := by
  induction n with
  | zero => rfl
  | succ n ih =>
    rw [List.range_succ, List.foldl_append, ih, Nat.count_succ]
    simp only [List.foldl_cons, List.foldl_nil]
    split
    · exact Nat.add_assoc ..
    · rfl

theorem countTable_eq (t : PTable) (c : ℕ) :
    countTable t c = c + Nat.count (fun i => (t.pte i).P = true) NPTENTRIES := by
  rw [countTable, foldl_count]

/-- The number of present entries below `KERNBASE`. -/
def presentPtes (d : Pgdir) : ℕ := Nat.count (fun v => (d.ent v).P = true) UPAGES

/-- The entries under one index of the directory. -/
theorem ent_under (d : Pgdir) (n : ℕ) {k : ℕ} (hk : k < NPTENTRIES) :
    d.ent (n * NPTENTRIES + k) = (d.pde n).elim Pte.zero fun t => t.pte k := by
  have hdiv : (n * NPTENTRIES + k) / 1024 = n := by
    simp only [NPTENTRIES] at hk ⊢
    omega
  have hmod : (n * NPTENTRIES + k) % 1024 = k := by
    simp only [NPTENTRIES] at hk ⊢
    omega
  rw [Pgdir.ent, hdiv, hmod]

theorem count_under (d : Pgdir) (n : ℕ) :
    Nat.count (fun k => (d.ent (n * NPTENTRIES + k)).P = true) NPTENTRIES =
      (d.pde n).elim 0 fun t => Nat.count (fun i => (t.pte i).P = true) NPTENTRIES := by
  cases hn : d.pde n with
  | none =>
    rw [Option.elim_none, Nat.count_iff_forall_not]
    intro k hk
    rw [ent_under d n hk, hn]
    exact Bool.false_ne_true
  | some t =>
    have hiff : ∀ k < NPTENTRIES, (d.ent (n * NPTENTRIES + k)).P = true ↔ (t.pte k).P = true :=
      fun k hk => by rw [ent_under d n hk, hn, Option.elim_some]
    rw [Option.elim_some]
    exact le_antisymm (Nat.count_mono_left fun k hk => (hiff k hk).mp)
      (Nat.count_mono_left fun k hk => (hiff k hk).mpr)

theorem countDirs_eq (d : Pgdir) (n : ℕ) :
    countDirs d n = Nat.count (fun v => (d.ent v).P = true) (n * NPTENTRIES) := by
  induction n with
  | zero => rw [Nat.zero_mul, Nat.count_zero, countDirs, List.range_zero, List.foldl_nil]
  | succ n ih =>
    rw [Nat.succ_mul, Nat.count_add, ← ih, count_under]
    unfold countDirs
    rw [List.range_succ, List.foldl_append, List.foldl_cons, List.foldl_nil]
    cases d.pde n with
    | none => rw [Option.elim_none, Option.elim_none, Nat.add_zero]
    | some t => rw [Option.elim_some, Option.elim_some, countTable_eq]

/-- The loops of `getpasize` count the present entries below `KERNBASE`. -/
theorem countDirs_half (d : Pgdir) : countDirs d (NPDENTRIES / 2) = presentPtes d := by
  have hhalf : NPDENTRIES / 2 * NPTENTRIES = UPAGES := by decide
  rw [countDirs_eq, hhalf, presentPtes]

/-! ## Pids in all slots -/

/-- Pids in slots in use and not in use: a pid other than 0 is in one slot only. -/
structure Pids (s : State) : Prop where
  nextpid_pos : 0 < s.nextpid
  lt : ∀ q, (s.proc q).pid < s.nextpid
  pos : ∀ q, (s.proc q).state ≠ .UNUSED → 0 < (s.proc q).pid
  inj : ∀ p q, (s.proc p).pid = (s.proc q).pid → 0 < (s.proc p).pid → p = q

namespace Pids

variable {s s' : State}

theorem init : Pids userinit := by
  refine ⟨by decide, fun q => ?_, fun q hq => ?_, fun p q he hp => ?_⟩
  · by_cases hq : q = slot0
    · rw [hq, userinit_slot0]
      exact Nat.one_lt_two
    · rw [userinit_of_ne hq]
      exact Nat.zero_lt_two
  · rw [userinit_used hq, userinit_slot0]
    exact Nat.one_pos
  · have hslot : ∀ q, 0 < (userinit.proc q).pid → q = slot0 := fun q hq => by
      by_contra hne
      rw [userinit_of_ne hne] at hq
      exact Nat.lt_irrefl 0 hq
    rw [hslot p hp, hslot q (he ▸ hp)]

/-- No pid changes, and no slot comes into use. -/
theorem keep (h : Pids s) (hn : s'.nextpid = s.nextpid)
    (hpid : ∀ q, (s'.proc q).pid = (s.proc q).pid)
    (hst : ∀ q, (s'.proc q).state ≠ .UNUSED → (s.proc q).state ≠ .UNUSED) : Pids s' := by
  refine ⟨hn ▸ h.nextpid_pos, fun q => ?_, fun q hq => ?_, fun p q he hp => ?_⟩
  · rw [hpid, hn]
    exact h.lt q
  · rw [hpid]
    exact h.pos q (hst q hq)
  · rw [hpid, hpid] at he
    rw [hpid] at hp
    exact h.inj p q he hp

/-- One slot changes, without its pid, and it does not come into use. -/
theorem setSlot (h : Pids s) (p : ProcPtr) {v : Proc}
    (hproc : s'.proc = s.proc.set p fun _ => v) (hn : s'.nextpid = s.nextpid)
    (hpid : v.pid = (s.proc p).pid) (hst : v.state ≠ .UNUSED → (s.proc p).state ≠ .UNUSED) :
    Pids s' := by
  refine h.keep hn (fun q => ?_) fun q hq => ?_
  · rw [hproc, Table.set_apply]
    split
    · rename_i hqp
      rw [hqp, hpid]
    · rfl
  · rw [hproc, Table.set_apply] at hq
    split at hq
    · rename_i hqp
      rw [hqp]
      exact hst hq
    · exact hq

/-- The slot `p` gets a pid that no other slot has, or 0 when it is put back. -/
theorem renew (h : Pids s) (p : ProcPtr) {v : Proc}
    (hproc : s'.proc = s.proc.set p fun _ => v) (hn : s.nextpid ≤ s'.nextpid)
    (hv : v.pid = 0 ∧ v.state = .UNUSED ∨ v.pid = s.nextpid ∧ s.nextpid < s'.nextpid) :
    Pids s' := by
  have hpos := h.nextpid_pos
  have hself : s'.proc p = v := by rw [hproc, Table.set_self]
  have hother : ∀ {q}, q ≠ p → s'.proc q = s.proc q := fun hq => by
    rw [hproc, Table.set_ne _ _ hq]
  have hnew : ∀ {q}, q ≠ p → (s'.proc q).pid = v.pid → v.pid = 0 := fun {q} hq he => by
    rcases hv with ⟨h0, -⟩ | ⟨hpid, -⟩
    · exact h0
    · have := h.lt q
      rw [hother hq, hpid] at he
      omega
  refine ⟨by omega, fun q => ?_, fun q hq => ?_, fun q r he hq => ?_⟩
  · by_cases hqp : q = p
    · rw [hqp, hself]
      omega
    · rw [hother hqp]
      exact lt_of_lt_of_le (h.lt q) hn
  · by_cases hqp : q = p
    · rw [hqp, hself] at hq ⊢
      rcases hv with ⟨-, hun⟩ | ⟨hpid, -⟩
      · exact absurd hun hq
      · omega
    · rw [hother hqp] at hq ⊢
      exact h.pos q hq
  · by_cases hqp : q = p
    · by_cases hrp : r = p
      · rw [hqp, hrp]
      · rw [hqp, hself] at he hq
        have := hnew hrp he.symm
        omega
    · by_cases hrp : r = p
      · rw [hrp, hself] at he
        have := hnew hqp he
        omega
      · rw [hother hqp] at hq
        rw [hother hqp, hother hrp] at he
        exact h.inj q r he hq

theorem step (h : Pids s) (hi : Inv s) {e : Event} (hs : Base.Step s e s') : Pids s' := by
  have hused : ∀ {p : ProcPtr} {st : ProcState}, (s.proc p).state = st → st ≠ .UNUSED →
      (s.proc p).state ≠ .UNUSED := fun hp hst => by rwa [hp]
  cases hs with
  | @sched p hst =>
    refine h.setSlot p rfl rfl rfl fun _ => ?_
    exact hused hst ProcState.noConfusion
  | @yield p hst =>
    refine h.setSlot p rfl rfl rfl fun _ => ?_
    exact hused hst ProcState.noConfusion
  | @sleep p hst =>
    refine h.setSlot p rfl rfl rfl fun _ => ?_
    exact hused hst ProcState.noConfusion
  | @wakeup p hst =>
    refine h.setSlot p rfl rfl rfl fun _ => ?_
    exact hused hst ProcState.noConfusion
  | fork => exact h.keep rfl (fun _ => rfl) fun _ => id
  | spawn => exact h.keep rfl (fun _ => rfl) fun _ => id
  | noslot => exact h.keep rfl (fun _ => rfl) fun _ => id
  | @alloc p np => exact h.renew np rfl (Nat.le_succ _) (Or.inr ⟨rfl, Nat.lt_succ_self _⟩)
  | @nostack p np =>
    refine h.setSlot np rfl rfl rfl fun hne => ?_
    exact absurd rfl hne
  | stack => exact h.keep rfl (fun _ => rfl) fun _ => id
  | @nocopy p np =>
    refine h.setSlot np rfl rfl rfl fun hne => ?_
    exact absurd rfl hne
  | @copy p np => exact h.setSlot np rfl rfl rfl id
  | @publish p np j hst hpc =>
    refine h.setSlot np rfl rfl rfl fun _ => ?_
    exact hused (hi.builder p np (Pc.builds_of_publish hpc)).2 ProcState.noConfusion
  | @exit p hst =>
    refine h.keep rfl (fun q => Table.exit_pid ..) fun q hq => ?_
    exact mt (Table.exit_unused (some s.initproc) (hused hst ProcState.noConfusion) q).mpr hq
  | @reap p q => exact h.renew q rfl (le_refl _) (Or.inl ⟨rfl, rfl⟩)
  | nochild => exact h.keep rfl (fun _ => rfl) fun _ => id
  | @waitSleep p hst =>
    refine h.setSlot p rfl rfl rfl fun _ => ?_
    exact hused hst ProcState.noConfusion
  | @kill p q hst hpc pid hf =>
    refine h.setSlot q rfl rfl rfl fun hq => ?_
    change (if _ then _ else _) ≠ _ at hq
    split at hq
    · rename_i hsl
      exact hused hsl ProcState.noConfusion
    · exact hq
  | nokill => exact h

end Pids

namespace Paged

theorem pids_of_reachable {s : Paged} (h : Reachable s) : Pids s.table ∧ Inv s.table := by
  induction h with
  | init d => exact ⟨Pids.init, inv_userinit⟩
  | step _ hs ih =>
    cases hs with
    | table h => exact ⟨ih.1.step ih.2 h, ih.2.step h⟩
    | copyuvm => exact ih
    | nocopy h => exact ⟨ih.1.step ih.2 h, ih.2.step h⟩
    | copy h => exact ⟨ih.1.step ih.2 h, ih.2.step h⟩
    | memory => exact ih

/-- A slot that has got its page directory has a pointer to one. -/
theorem pgdir_of_ready {s : Paged} (h : Reachable s) (q : ProcPtr) (hq : s.ready q = true) :
    s.pgdir q ≠ none := by
  induction h with
  | init d =>
    obtain rfl : q = slot0 := of_decide_eq_true hq
    change Function.update (fun _ => none) slot0 (some d) slot0 ≠ none
    rw [Function.update_self]
    exact Option.some_ne_none d
  | @step s s' _ hs ih =>
    cases hs with
    | table => exact ih (Bool.and_eq_true_iff.mp hq).1
    | @copyuvm p np j _ _ _ d =>
      change Function.update s.ready np true q = true at hq
      change Function.update s.pgdir np (some d) q ≠ none
      by_cases hnp : q = np
      · rw [hnp, Function.update_self]
        exact Option.some_ne_none d
      · rw [Function.update_of_ne hnp] at hq ⊢
        exact ih hq
    | @nocopy t p np j _ _ _ hr =>
      have hnp : q ≠ np := fun e => by
        rw [e, hr] at hq
        exact Bool.false_ne_true hq
      change Function.update s.pgdir np none q ≠ none
      rw [Function.update_of_ne hnp]
      exact ih hq
    | copy => exact ih hq
    | memory h => exact mt (h q).mp (ih hq)

end Paged

/-! ## What the queries answer -/

/-- For a pid of no slot in use, `getpasize` returns -1 without reading a page directory and
`whatsthestatus` does not read an unset pointer. For the pid of a slot in use with a page
directory, `getpasize` returns the number of present entries below `KERNBASE` in it, and
`whatsthestatus` returns the pid of the parent. -/
structure Exact (s : Paged) (pid : ℤ) : Prop where
  absent : (∀ q, (s.table.proc q).state ≠ .UNUSED → ((s.table.proc q).pid : ℤ) ≠ pid) →
    getpasize s.table.proc s.pgdir pid = .ret (-1) ∧
      whatsthestatus s.table.proc pid ≠ .unset
  present : ∀ q, (s.table.proc q).state ≠ .UNUSED → ((s.table.proc q).pid : ℤ) = pid →
    s.ready q = true →
    (∃ d, s.pgdir q = some d ∧
      getpasize s.table.proc s.pgdir pid = .read q (presentPtes d)) ∧
    ∃ r, (s.table.proc q).parent = some r ∧ whatsthestatus s.table.proc pid =
      .ret (s.table.proc q).pid (stateText (s.table.proc q).state) (s.table.proc r).pid

/-- The pid is that of a slot in use that has a parent, or has no page directory yet. -/
def Known (s : Paged) (pid : ℤ) : Prop :=
  ∃ q, (s.table.proc q).state ≠ .UNUSED ∧ ((s.table.proc q).pid : ℤ) = pid ∧
    (s.ready q = true → (s.table.proc q).parent ≠ none)

section Spec

variable {t : Table} {pgdir : ProcPtr → Option Pgdir} {pid : ℤ} {q : ProcPtr}

theorem getpasize_some (hf : t.first (fun q => (q.pid : ℤ) = pid) = some q) :
    getpasize t pgdir pid = (pgdir q).elim (.null q) fun d => .read q (presentPtes d) := by
  simp only [getpasize, hf]
  cases pgdir q with
  | none => rfl
  | some d => simp only [countDirs_half, Option.elim_some]

theorem find_parent {r : ProcPtr} (h : (t q).parent = some r) :
    (List.finRange NPROC).find? (fun p => (t q).parent = some p) = some r := by
  cases hf : (List.finRange NPROC).find? fun p => (t q).parent = some p with
  | none =>
    have := List.find?_eq_none.mp hf r (List.mem_finRange r)
    exact absurd (decide_eq_true h) this
  | some p =>
    have hp := List.find?_some hf
    rw [decide_eq_true_iff, h] at hp
    rw [Option.some.inj hp]

theorem find_no_parent (h : (t q).parent = none) :
    (List.finRange NPROC).find? (fun p => (t q).parent = some p) = none := by
  refine List.find?_eq_none.mpr fun p _ hp => ?_
  rw [h] at hp
  exact absurd (of_decide_eq_true hp) (Option.some_ne_none p).symm

theorem whatsthestatus_none (hf : t.first (fun q => (q.pid : ℤ) = pid) = none) :
    whatsthestatus t pid = .unset := by
  rw [whatsthestatus, hf]

/-- Without a parent the second loop runs to the end of the table. -/
theorem whatsthestatus_some (hf : t.first (fun q => (q.pid : ℤ) = pid) = some q) :
    whatsthestatus t pid = (t q).parent.elim .past fun r =>
      .ret (t q).pid (stateText (t q).state) (t r).pid := by
  cases hp : (t q).parent with
  | none => simp only [whatsthestatus, hf, find_no_parent hp, Option.elim_none]
  | some r => simp only [whatsthestatus, hf, find_parent hp, Option.elim_some]

end Spec

section Answers

variable {s : Paged} {pid : ℤ}

/-- The scan finds the slot in use, since no other slot has its pid. -/
theorem Pids.first (h : Pids s.table) {q : ProcPtr} (hq : (s.table.proc q).state ≠ .UNUSED)
    (hpid : ((s.table.proc q).pid : ℤ) = pid) :
    s.table.proc.first (fun q => (q.pid : ℤ) = pid) = some q := by
  cases hf : s.table.proc.first fun q => (q.pid : ℤ) = pid with
  | none => exact absurd hpid (of_decide_eq_false (Table.first_none hf q))
  | some p =>
    have hp : ((s.table.proc p).pid : ℤ) = pid := of_decide_eq_true (Table.first_some hf)
    have he : (s.table.proc q).pid = (s.table.proc p).pid := by omega
    rw [h.inj q p he (h.pos q hq)]

theorem Pids.exact_iff (h : Pids s.table) (hready : ∀ q, s.ready q = true → s.pgdir q ≠ none)
    (pid : ℤ) : Exact s pid ↔ Known s pid := by
  refine ⟨fun he => ?_, fun hk => ?_⟩
  · by_cases hex : ∃ q, (s.table.proc q).state ≠ .UNUSED ∧ ((s.table.proc q).pid : ℤ) = pid
    · obtain ⟨q, hq, hpid⟩ := hex
      refine ⟨q, hq, hpid, fun hr => ?_⟩
      obtain ⟨-, r, hpar, -⟩ := he.present q hq hpid hr
      rw [hpar]
      exact Option.some_ne_none r
    · -- what `getpasize` returns says that no slot has the pid
      obtain ⟨hsize, hset⟩ := he.absent fun q hq hpid => hex ⟨q, hq, hpid⟩
      cases hf : s.table.proc.first fun q => (q.pid : ℤ) = pid with
      | none => exact absurd (whatsthestatus_none hf) hset
      | some p =>
        rw [getpasize_some hf] at hsize
        cases hd : s.pgdir p with
        | none =>
          rw [hd] at hsize
          cases hsize
        | some d =>
          rw [hd] at hsize
          cases hsize
  · obtain ⟨q, hq, hpid, hpar⟩ := hk
    have hfirst := h.first hq hpid
    refine ⟨fun hno => absurd hpid (hno q hq), fun p hp hpid' hr => ?_⟩
    obtain rfl : p = q := Option.some.inj ((h.first hp hpid').symm.trans hfirst)
    obtain ⟨d, hd⟩ := Option.ne_none_iff_exists'.mp (hready p hr)
    obtain ⟨r, hpr⟩ := Option.ne_none_iff_exists'.mp (hpar hr)
    refine ⟨⟨d, hd, ?_⟩, r, hpr, ?_⟩
    · rw [getpasize_some hfirst, hd, Option.elim_some]
    · rw [whatsthestatus_some hfirst, hpr, Option.elim_some]

end Answers

/-- In every reachable state and for every pid the queries answer exactly if the pid is that of a
slot in use that has a parent, or has no page directory yet. -/
theorem queries_exact_iff {s : Paged} (h : s.Reachable) (pid : ℤ) :
    Exact s pid ↔ Known s pid :=
  (Paged.pids_of_reachable h).1.exact_iff (Paged.pgdir_of_ready h) pid

/-! ## Runs -/

namespace Paged

/-- While no process is at `copyuvm`, the steps of the process table are steps. -/
theorem Reachable.quiet {s : Paged} {e : Event} {t : State} (h : Reachable s)
    (hs : Base.Step s.table e t) (hno : ∀ p j np, s.table.pc p ≠ .copyuvm j np) :
    Reachable { s with
      table := t, ready := fun q => s.ready q && (t.proc q).state ≠ .UNUSED } :=
  h.step (.table hs fun p j np hp => absurd hp (hno p j np))

theorem copyuvm_setPc {s : State} {p : ProcPtr} {c : Pc}
    (h : ∀ q j np, s.pc q ≠ .copyuvm j np) (hc : ∀ j np, c ≠ .copyuvm j np) :
    ∀ q j np, (s.setPc p c).pc q ≠ .copyuvm j np := by
  intro q j np
  by_cases hq : q = p
  · rw [hq, s.setPc_self]
    exact hc j np
  · rw [s.setPc_of_ne hq]
    exact h q j np

/-- A running process gets as far in `fork` as the assignment of the parent. -/
theorem Reachable.fork {s : Paged} {p np : ProcPtr} (h : Reachable s)
    (hp : (s.table.proc p).state = .RUNNING) (hpc : s.table.pc p = .user)
    (hno : ∀ q j np, s.table.pc q ≠ .copyuvm j np)
    (hf : s.table.proc.first (·.state = .UNUSED) = some np) (hpid : s.table.nextpid < INT_MAX)
    (hr : s.ready np = false) (d : Pgdir) :
    ∃ s' : Paged, s'.Reachable ∧ s'.ready np = true ∧
      (s'.table.proc np).parent = some p ∧ (s'.table.proc np).state = .EMBRYO ∧
      (s'.table.proc np).pid = s.table.nextpid := by
  have hne : p ≠ np := fun e => by
    have hnp : (s.table.proc np).state = .UNUSED := of_decide_eq_true (Table.first_some hf)
    rw [← e, hp] at hnp
    exact ProcState.noConfusion hnp
  have h₁ := h.quiet (.fork hp hpc) hno
  have hno₁ := copyuvm_setPc (p := p) (c := .allocproc .fork) hno fun _ _ => Pc.noConfusion
  have h₂ := h₁.quiet (.alloc hp (s.table.setPc_self p _) hf hpid) hno₁
  have hp₂ : (s.table.proc.set np (fun q =>
      { q with state := .EMBRYO, pid := s.table.nextpid }) p).state = .RUNNING := by
    rwa [Table.set_ne _ _ hne]
  have hno₂ := copyuvm_setPc (p := p) (c := .kstack .fork np) hno₁ fun _ _ => Pc.noConfusion
  have h₃ := h₂.quiet (.stack hp₂ (State.setPc_self _ p _)) hno₂
  have h₄ := h₃.step (.copyuvm hp₂ (State.setPc_self _ p _) (by simp only [hr, Bool.false_and]) d)
  have h₅ := h₄.step (.copy (.copy hp₂ (State.setPc_self _ p _)) (State.setPc_self _ p _)
    (State.setPc_self _ p _) (Function.update_self ..))
  refine ⟨_, h₅, Function.update_self .., ?_, ?_, ?_⟩
  · change (Table.set _ np _ np).parent = _
    rw [Table.set_self]
  · change (Table.set _ np _ np).state = _
    rw [Table.set_self]
    change (Table.set _ np _ np).state = _
    rw [Table.set_self]
  · change (Table.set _ np _ np).pid = _
    rw [Table.set_self]
    change (Table.set _ np _ np).pid = _
    rw [Table.set_self]
    rfl

/-- The first process forks a child. -/
theorem forked (d : Pgdir) : ∃ (s : Paged) (np : ProcPtr), s.Reachable ∧ s.ready np = true ∧
    (s.table.proc np).parent = some slot0 ∧ (s.table.proc np).state = .EMBRYO ∧
    (s.table.proc np).pid = 2 := by
  have hst : (Base.userinit.proc slot0).state = .RUNNABLE := by rw [userinit_slot0]
  have h₁ := (Reachable.init d).quiet (.sched hst) fun _ _ _ => Pc.noConfusion
  have hst₁ : ((Base.userinit.setProc slot0 fun q =>
      { q with state := .RUNNING, chan := none }).proc slot0).state = .RUNNING := by
    rw [State.setProc_self]
  cases hf : (Base.userinit.setProc slot0 fun q =>
      { q with state := .RUNNING, chan := none }).proc.first (·.state = .UNUSED) with
  | none =>
    have hfull := Table.first_none hf ⟨1, by decide⟩
    rw [State.setProc_of_ne _ (by decide), userinit_of_ne (by decide)] at hfull
    exact absurd hfull (by decide)
  | some np =>
    have hne : np ≠ slot0 := fun e => by
      have hnp := of_decide_eq_true (Table.first_some hf)
      rw [e, hst₁] at hnp
      exact ProcState.noConfusion hnp
    have hr : (userinit d).ready np = false := decide_eq_false hne
    have hnext : Base.userinit.nextpid < INT_MAX := by decide
    obtain ⟨s, h, hready, hpar, hemb, hpid⟩ := h₁.fork hst₁ rfl (fun _ _ _ => Pc.noConfusion) hf
      hnext (by simp only [hr, Bool.false_and]) d
    exact ⟨s, np, h, hready, hpar, hemb, hpid⟩

end Paged

/-- The pid of a child of the first process is one that the queries know. -/
theorem queries_exact_child : ∃ (s : Paged) (q : ProcPtr), s.Reachable ∧
    s.ready q = true ∧ (s.table.proc q).pid = 2 ∧ Exact s 2 := by
  obtain ⟨s, q, h, hr, hpar, hst, hpid⟩ := Paged.forked ⟨1, fun _ => none, []⟩
  have hknown : Known s 2 := by
    refine ⟨q, ?_, by rw [hpid]; rfl, fun _ => ?_⟩
    · rw [hst]
      exact ProcState.noConfusion
    · rw [hpar]
      exact Option.some_ne_none slot0
  exact ⟨s, q, h, hr, hpid, (queries_exact_iff h 2).mpr hknown⟩

/-- After `userinit` the pid 1 is that of the first process, which has no parent: `whatsthestatus`
reads past the table. No process has the pid 0 or 5: for the first `getpasize` reads through
the null pointer of an unused slot, for the second `whatsthestatus` reads an unset pointer. -/
theorem queries_not_exact : ∃ s : Paged, s.Reachable ∧
    (whatsthestatus s.table.proc 1 = .past ∧ ¬Exact s 1) ∧
    ((∃ q, getpasize s.table.proc s.pgdir 0 = .null q) ∧ ¬Exact s 0) ∧
    whatsthestatus s.table.proc 5 = .unset ∧ ¬Exact s 5 := by
  set s := Paged.userinit ⟨1, fun _ => none, []⟩
  have hslot0 : s.table.proc slot0 = { pid := 1, sz := PGSIZE, state := .RUNNABLE } :=
    userinit_slot0
  have hrest : ∀ q, q ≠ slot0 → s.table.proc q = {} := fun q => userinit_of_ne
  have hused : ∀ {q}, (s.table.proc q).state ≠ .UNUSED → q = slot0 := fun hq =>
    userinit_used hq
  have habsent : ∀ pid : ℤ, pid ≠ 1 → ∀ q, (s.table.proc q).state ≠ .UNUSED →
      ((s.table.proc q).pid : ℤ) ≠ pid := fun pid hpid q hq he => by
    rw [hused hq, hslot0] at he
    exact hpid he.symm
  have hne : (s.table.proc slot0).state ≠ .UNUSED := by
    rw [hslot0]
    exact ProcState.noConfusion
  have hpar : (s.table.proc slot0).parent = none := by rw [hslot0]
  have hready : s.ready slot0 = true := by
    change decide (slot0 = slot0) = true
    exact decide_eq_true rfl
  have hfirst : s.table.proc.first (fun q => (q.pid : ℤ) = 1) = some slot0 :=
    Pids.first (s := s) Pids.init hne (by rw [hslot0]; rfl)
  have hnull : ∃ q, getpasize s.table.proc s.pgdir 0 = .null q := by
    cases hf : s.table.proc.first fun q => (q.pid : ℤ) = 0 with
    | none =>
      have hnone := Table.first_none hf ⟨1, by decide⟩
      rw [hrest _ (by decide)] at hnone
      exact absurd hnone (by decide)
    | some q =>
      have hq : q ≠ slot0 := fun e => by
        have hpid := of_decide_eq_true (Table.first_some hf)
        rw [e, hslot0] at hpid
        exact absurd hpid (by decide)
      have hd : s.pgdir q = none := by
        change Function.update (fun _ => none) slot0 _ q = none
        rw [Function.update_of_ne hq]
      exact ⟨q, by rw [getpasize_some hf, hd, Option.elim_none]⟩
  have hunset : whatsthestatus s.table.proc 5 = .unset := by
    refine whatsthestatus_none (List.find?_eq_none.mpr fun q _ hq => ?_)
    have hpid := of_decide_eq_true hq
    by_cases hq0 : q = slot0
    · rw [hq0, hslot0] at hpid
      exact absurd hpid (by decide)
    · rw [hrest q hq0] at hpid
      exact absurd hpid (by decide)
  refine ⟨s, .init _, ⟨?_, fun he => ?_⟩, ⟨hnull, fun he => ?_⟩, hunset, fun he => ?_⟩
  · rw [whatsthestatus_some hfirst, hpar, Option.elim_none]
  · obtain ⟨-, r, hr, -⟩ := he.present slot0 hne (by rw [hslot0]; rfl) hready
    rw [hpar] at hr
    cases hr
  · obtain ⟨q, hq⟩ := hnull
    have hret := (he.absent (habsent 0 (by decide))).1
    rw [hq] at hret
    cases hret
  · exact (he.absent (habsent 5 (by decide))).2 hunset

end OsLabs.Base
