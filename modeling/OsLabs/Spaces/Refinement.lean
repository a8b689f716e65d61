import OsLabs.Lazy.Steps
import OsLabs.Spaces.Grown

/-!
# Runs side by side

A sequence of operations that a kernel performs is performed by another one, with results that the
processes cannot tell apart, until the other kernel finds no frame.

* `Ran T C k l k'`: the tree `T` performs the operations of `l`, with their results, from `k` to
  `k'`; all meet the condition `C`, and no call of `kalloc` fails;
* `Ran.follow`: what holds of every step holds of the runs;
* `cow_refines_eager`: copy-on-write `fork` against eager `fork`;
* `lazy_refines_grown`: lazy `mmap` against `mmap` that allocates.
-/

namespace OsLabs.Spaces

open Xv6 StateError

section Runs

variable {κ κ' : Type} [Kalloc κ] [Kalloc κ'] [Layout]

/-- Operations one after another, with what they return; none of them finds memory exhausted. -/
inductive Ran (T : Xv6.Tree κ) (C : Kernel κ → Op → Prop) (k : Kernel κ) :
    List (Op × Result) → Kernel κ → Prop
  | nil : Ran T C k [] k
  | snoc {l : List (Op × Result)} {k₁ k₂ : Kernel κ} {op : Op} {r : Result} (h : Ran T C k l k₁)
      (hc : C k₁ op) (hs : Xv6.step T op k₁ = .ok r k₂) (ho : k₂.phys.oom = false) :
      Ran T C k (l ++ [(op, r)]) k₂

/-- The same operation with the same result, after one fault at most and without killing the
process. -/
structure Agrees (x y : Op × Result) : Prop where
  op : x.1 = y.1
  seen : x.2.seen = y.2.seen
  faults : x.2.faults ≤ 1
  alive : x.2 ≠ .killed

omit [Layout] in
theorem ops_eq {l l' : List (Op × Result)} (h : List.Forall₂ Agrees l' l) :
    l.map Prod.fst = l'.map Prod.fst := by
  induction h with
  | nil => rfl
  | cons hx _ ih => rw [List.map_cons, List.map_cons, ih, hx.op]

variable {T : Xv6.Tree κ} {T' : Xv6.Tree κ'} {C : Kernel κ' → Op → Prop} {k : Kernel κ}
variable {e e' : Kernel κ'}
variable {l : List (Op × Result)} {p np : ProcPtr} {r : Result}

/-- One kernel follows the other through a run where it follows every step, or stops short of an
operation `op` in a state with `S k₁ op`. -/
theorem Ran.follow {R : Kernel κ → Kernel κ' → Prop} {S : Kernel κ → Op → Prop}
    (hstep : ∀ k e op r' e', R k e → C e op → Xv6.step T' op e = .ok r' e' → e'.phys.oom = false →
      (∃ r k', Xv6.step T op k = .ok r k' ∧ k'.phys.oom = false ∧ R k' e' ∧
        Agrees (op, r) (op, r')) ∨ S k op)
    (h₀ : R k e) (h : Ran T' C e l e') :
    (∃ l' k', Ran T (fun _ _ => True) k l' k' ∧ R k' e' ∧ List.Forall₂ Agrees l' l) ∨
      ∃ l₁ op l₂ k₁, l.map Prod.fst = l₁.map Prod.fst ++ op :: l₂ ∧
        Ran T (fun _ _ => True) k l₁ k₁ ∧ S k₁ op := by
  induction h with
  | nil => exact Or.inl ⟨[], k, .nil, h₀, .nil⟩
  | @snoc l e₁ e₂ op r' hr hc hs ho ih =>
    rcases ih with ⟨l', k', hr', hR, hl⟩ | ⟨l₁, op₁, l₂, k₁, hl, hr', hS⟩
    · rcases hstep k' e₁ op r' e₂ hR hc hs ho with ⟨r, k₂, hs', ho', hR', hag⟩ | hS
      · exact Or.inl ⟨_, k₂, hr'.snoc trivial hs' ho', hR', List.rel_append hl (.cons hag .nil)⟩
      · refine Or.inr ⟨l', op, [], k', ?_, hr', hS⟩
        rw [List.map_append, ops_eq hl]
        rfl
    · refine Or.inr ⟨l₁, op₁, l₂ ++ [op], k₁, ?_, hr', hS⟩
      rw [List.map_append, hl, List.append_assoc]
      rfl

/-- A `fork` that comes to an end has a pid for its child. -/
theorem nextpid_of_fork {k' : Kernel κ} (hs : Xv6.step T (.fork p) k = .ok r k')
    (hp : (k.proc p).state = .RUNNING) (hnp : k.proc.first (·.state = .UNUSED) = some np) :
    k.nextpid ≠ INT_MAX := by
  have hwp : wp (Xv6.step T (.fork p)) (fun _ _ => k.nextpid ≠ INT_MAX) (fun _ _ => True) k := by
    refine (wp_whenRunning_of hp).mpr ?_
    unfold forkWith allocproc
    simp only [wp_bind, wp_get, hnp]
    by_cases hpid : k.nextpid = INT_MAX
    · rw [if_pos hpid]
      exact trivial
    · rw [if_neg hpid]
      exact wp_mono (wp_eq _ k) (fun _ _ _ => wp_mono (wp_eq _ _) (fun _ _ _ => hpid)
        fun _ _ _ => trivial) fun _ _ _ => trivial
  have hne := of_ok hwp hs
  exact hne

/-- A process that has exited is not `init`. -/
theorem initproc_of_exit {k' : Kernel κ} (hs : Xv6.step T (.exit p) k = .ok r k')
    (hp : (k.proc p).state = .RUNNING) : k.initproc ≠ some p := by
  have hwp : wp (Xv6.step T (.exit p)) (fun _ _ => k.initproc ≠ some p) (fun _ _ => True) k := by
    refine (wp_whenRunning_of hp).mpr ?_
    unfold Xv6.exit
    simp only [wp_bind, wp_get]
    by_cases hi : k.initproc = some p
    · rw [if_pos hi]
      exact trivial
    · rw [if_neg hi]
      exact hi
  have hne := of_ok hwp hs
  exact hne

end Runs

section Cow

variable [Layout] {e e' : Kernel Base.Kmem} {k : Kernel Cow.Kmem} {op : Op} {r : Result}

/-- The operations that are compared in the state `e` of the eager kernel. A user access is to a
page that is present and the user's, and no `sbrk` asks for the size 0. -/
def Admitted (e : Kernel Base.Kmem) : Op → Prop
  | .sched _ | .yield _ | .fork _ | .exit _ | .wait _ => True
  | .sbrk p n => (e.proc p).sz + argint n ≠ 0
  | .load p va | .store p va _ => ∃ d, e.pgdir p = some d ∧
      (d.ent (uint va / 4096)).P = true ∧ (d.ent (uint va / 4096)).U = true
  | .mmap _ _ | .exec _ _ _ | .kalloc | .kfree _ => False

/-- Where such an operation comes to an end, it is one that the processes are promised. -/
theorem Admitted.step {T : Xv6.Tree Base.Kmem} (h : InvOf Eager.PlainOk 0 e) (hc : Admitted e op)
    (hs : Xv6.step T op e = .ok r e') : ∃ r a', e.spaces.step op = some (r, a') := by
  have hrun : ∀ {p : ProcPtr} {o : Option (Result × Spaces)},
      ((e.proc p).state = .RUNNING → ∃ r a', o = some (r, a')) →
      ∃ r a', e.spaces.whenRunning p o = some (r, a') := by
    intro p o ho
    unfold Spaces.whenRunning
    split
    · rename_i hp
      exact ho hp
    · exact ⟨_, _, rfl⟩
  cases op with
  | fork p =>
    refine hrun fun hp => ?_
    unfold Spaces.fork
    cases hnp : e.spaces.proc.first (·.state = .UNUSED) with
    | none => exact ⟨_, _, rfl⟩
    | some np =>
      have hpid : e.spaces.nextpid ≠ INT_MAX := nextpid_of_fork hs hp hnp
      dsimp only
      rw [if_neg hpid]
      exact ⟨_, _, rfl⟩
  | exit p =>
    refine hrun fun hp => ?_
    have hi : e.spaces.initproc ≠ some p := initproc_of_exit hs hp
    rw [Spaces.exit, if_neg hi]
    exact ⟨_, _, rfl⟩
  | sbrk p n =>
    refine hrun fun _ => ?_
    have hsz : (e.spaces.proc p).sz + argint n ≠ 0 := hc
    unfold Spaces.sbrk
    split_ifs
    all_goals exact ⟨_, _, rfl⟩
  | load | store => exact Compared.step h hc
  | sched | yield | wait => exact Compared.step h trivial
  | mmap | exec | kalloc | kfree => exact hc.elim

/-- A call of `kalloc` fails in the operation. -/
def Exhausts (op : Op) (k : Kernel Cow.Kmem) : Prop :=
  wp (Xv6.step Cow.tree op) (fun _ k' => k'.phys.oom = true) (fun _ k' => k'.phys.oom = true) k

/-- Whatever the eager kernel performs from boot on, the copy-on-write kernel performs too: with the
same results, after one fault at most for each access, and without killing a process; or up to an
operation in which a call of `kalloc` fails. -/
theorem cow_refines_eager {M : Machine} {l : List (Op × Result)}
    (hk : boot M (powerOn M) = .ok () k) (he : boot M (powerOn M) = .ok () e)
    (h : Ran Eager.tree Admitted e l e') :
    (∃ l' k', Ran Cow.tree (fun _ _ => True) k l' k' ∧ List.Forall₂ Agrees l' l) ∨
      ∃ l₁ op l₂ k₁, l.map Prod.fst = l₁.map Prod.fst ++ op :: l₂ ∧
        Ran Cow.tree (fun _ _ => True) k l₁ k₁ ∧ Exhausts op k₁ := by
  have hfollow := Ran.follow (T := Cow.tree) (R := Together) (S := fun k op => Exhausts op k)
    (fun k e op r' e' hR hc hs ho => ?_) (together_boot hk he) h
  · exact hfollow.imp_left fun ⟨l', k', hr, _, hl⟩ => ⟨l', k', hr, hl⟩
  · obtain ⟨r₀, a', ha⟩ := hc.step hR.eager hs
    obtain ⟨r₁, e₁, he₁, hstep⟩ := hR.step ha
    cases hs.symm.trans he₁
    cases hcow : Xv6.step Cow.tree op k with
    | error err k' =>
      have hoom := of_error hstep hcow
      refine Or.inr ?_
      unfold Exhausts wp
      rw [hcow]
      exact hoom
    | ok r k' =>
      cases hoom : k'.phys.oom with
      | true =>
        refine Or.inr ?_
        unfold Exhausts wp
        rw [hcow]
        exact hoom
      | false =>
        obtain ⟨htog, hseen, hfaults, -, hkill⟩ := of_ok hstep hcow hoom ho
        exact Or.inl ⟨r, k', rfl, hoom, htog, rfl, hseen, hfaults, hkill⟩

omit [Layout] in
/-- An access of the eager kernel does not allocate, and leaves the directories alone. -/
theorem access_frame {va n : ℕ} {w : Option UInt8} {p : ProcPtr}
    (he : AccessEnd (fun _ _ => True) p va w n e r e') :
    e'.phys.oom = e.phys.oom ∧ e'.pgdir = e.pgdir := by
  cases he <;> exact ⟨rfl, rfl⟩

/-- With enough memory the eager kernel makes a child, and the parent keeps its directory. -/
theorem fork_frame {p np : ProcPtr} {d : Pgdir} (hp : (e.proc p).state = .RUNNING)
    (hd : e.pgdir p = some d) (hsz : (e.proc p).sz = PGSIZE) (hfree : 1000 ≤ e.phys.free.length)
    (hnp : e.proc.first (·.state = .UNUSED) = some np) (he : Eager.Effect 0 e (.fork p) r e') :
    e'.phys.oom = e.phys.oom ∧ e'.pgdir p = some d ∧ (e'.proc p).state = .RUNNING := by
  have hne : p ≠ np := fun h => by
    have hu : (e.proc np).state = .UNUSED := of_decide_eq_true (Table.first_some hnp)
    rw [← h, hp] at hu
    cases hu
  have hone : pages (e.proc p).sz = 1 := by rw [hsz]; rfl
  cases he with
  | common hc =>
    cases hc with
    | disabled hno => exact absurd hp hno
  | fork _ hd' hf =>
    obtain rfl := Option.some.inj (hd.symm.trans hd')
    cases hf with
    | full hnone => exact absurd (hnp.symm.trans hnone) (by simp)
    | noStack _ hnil =>
      rw [hnil, List.length_nil] at hfree
      omega
    | noCopy _ _ _ _ hcons hc =>
      rw [hcons, List.length_cons] at hfree
      cases hc with
      | failed hshort =>
        rcases hshort with hlt | ⟨n, hn, v, hv, -, -, hlt, -⟩
        · omega
        · obtain rfl : v = 0 := Nat.lt_one_iff.mp (hone ▸ hv)
          have hcard : (Lazy.copied d (0 + 1)).card ≤ 1 :=
            (Finset.card_filter_le _ _).trans (by simp)
          simp only [Lazy.need] at hlt
          omega
    | born hnp' _ _ ho₁ _ hc =>
      obtain rfl := Option.some.inj (hnp.symm.trans hnp')
      cases hc with
      | copied _ _ _ _ _ ho =>
        refine ⟨ho.trans ho₁, ?_, ?_⟩
        · rw [Kernel.born]
          dsimp only
          rw [Function.update_of_ne hne, Function.update_self]
          rfl
        · rw [Kernel.born]
          dsimp only
          rw [Table.set_ne _ _ hne]
          exact hp

/-- A step that cannot stop. -/
theorem exists_step (op : Op) (h : InvOf Eager.PlainOk 0 e) (hno : ∀ er, ¬Eager.OpStop e op er) :
    ∃ r e', Xv6.step Eager.tree op e = .ok r e' ∧ Eager.Effect 0 e op r e' ∧
      InvOf Eager.PlainOk 0 e' := by
  obtain ⟨r, e', hs, he, -⟩ := wp_ok (wp_mono (wp_and (Eager.step_spec (Eager.eager_of_plain h) op)
    (Eager.step_stop h op)) (fun _ _ h => h) fun er _ h => hno er h.2)
  exact ⟨r, e', hs, he, he.plain h⟩

end Cow

/-- `init` is scheduled, forks, and writes a byte that it reads again. -/
theorem cow_refines_eager_fork : ∃ (_ : Layout) (M : Machine) (k : Kernel Cow.Kmem)
    (e e' : Kernel Base.Kmem) (l : List (Op × Result)), boot M (powerOn M) = .ok () k ∧
      boot M (powerOn M) = .ok () e ∧ Ran Eager.tree Admitted e l e' ∧
      l.map Prod.fst =
        [.sched initSlot, .fork initSlot, .store initSlot 5 0x41, .load initSlot 5] ∧
      ((∃ l' k', Ran Cow.tree (fun _ _ => True) k l' k' ∧ List.Forall₂ Agrees l' l) ∨
        ∃ l₁ op l₂ k₁, l.map Prod.fst = l₁.map Prod.fst ++ op :: l₂ ∧
          Ran Cow.tree (fun _ _ => True) k l₁ k₁ ∧ Exhausts op k₁) := by
  let _ := sampleLayout
  obtain ⟨k, hk, hbk⟩ := boot_ok (κ := Cow.Kmem) sample_fits
  obtain ⟨e, he, hbe⟩ := boot_ok (κ := Base.Kmem) sample_fits
  obtain ⟨d, hd, hi, hU, -, -⟩ := hbe.dir
  have hre : (e.proc initSlot).state = .RUNNABLE := by simp [hbe.table]
  have hplain := hbe.invOf Eager.shape_plain
  have hs₁ := step_sched (T := Eager.tree) hre hd (hplain.of_live hbe.live hd).1
  set e₁ : Kernel Base.Kmem := { e with
    proc := e.proc.set initSlot fun q => { q with state := .RUNNING, chan := none }
    pgdir := Function.update e.pgdir initSlot (some d.flush) } with he₁
  have ho₁ : e₁.phys.oom = false := hbe.oom
  have hr₁ : Ran Eager.tree Admitted e [(.sched initSlot, .ret 0)] e₁ :=
    .snoc .nil trivial hs₁ ho₁
  have hplain₁ : InvOf Eager.PlainOk 0 e₁ :=
    (CommonEffect.sched (x := 0) hre hd).inv Eager.shape_plain hplain
  have hd₁ : e₁.pgdir initSlot = some d.flush :=
    Function.update_self initSlot (some d.flush) e.pgdir
  have hrun₁ : (e₁.proc initSlot).state = .RUNNING := congrArg Proc.state (Table.set_self ..)
  have hsz₁ : (e₁.proc initSlot).sz = PGSIZE :=
    (congrArg Proc.sz (Table.set_self ..)).trans hbe.sz
  obtain ⟨hP, hW, -, hL⟩ := hi.low 0 Nat.one_pos
  -- the fork
  have hnp₁ : e₁.proc.first (·.state = .UNUSED) = some ⟨1, by decide⟩ := by
    rw [he₁]
    dsimp only
    rw [hbe.table]
    rfl
  obtain ⟨r₂, e₂, hs₂, hf₂, hplain₂⟩ := exists_step (.fork initSlot) hplain₁ (by
    rintro er ⟨-, ⟨-, hpid⟩ | ⟨d', n, hd', v, hv, -, -, hwhy⟩⟩
    · exact absurd (hbe.nextpid.symm.trans hpid) (by decide)
    · obtain rfl := Option.some.inj (hd₁.symm.trans hd')
      rw [hsz₁] at hv
      obtain rfl : v = 0 := Nat.lt_one_iff.mp hv
      rcases hwhy with ⟨-, hno⟩ | ⟨-, hge, -⟩ | ⟨-, -, -, hlazy, -⟩
      · exact hno (Or.inl hP)
      · exact absurd hge (by decide)
      · exact absurd (hL.symm.trans hlazy) (by decide))
  obtain ⟨ho₂, hd₂, hrun₂⟩ := fork_frame hrun₁ hd₁ hsz₁ (le_trans (by decide) hbe.free) hnp₁ hf₂
  have hr₂ : Ran Eager.tree Admitted e ([(.sched initSlot, .ret 0)] ++ [(.fork initSlot, r₂)]) e₂ :=
    .snoc hr₁ trivial hs₂ (ho₂.trans ho₁)
  -- the store and the load
  have hpage : uint 5 / 4096 = 0 := by decide
  have hallow : ∀ {d' : Pgdir} (w : Bool), d.flush = d' → ∃ pte, d'.allows (uint 5) w pte := by
    rintro _ w rfl
    rw [Pgdir.exists_allows (by decide) hpage, Pgdir.ent_flush, Pte.permits, hP, hU, hW]
    cases w <;> rfl
  obtain ⟨r₃, e₃, hs₃, hf₃, hplain₃⟩ := exists_step (.store initSlot 5 0x41) hplain₂ (by
    rintro er ⟨d', hd', hno⟩
    exact hno (hallow true (Option.some.inj (hd₂.symm.trans hd'))))
  have hadm : ∃ d', e₂.pgdir initSlot = some d' ∧ (d'.ent (uint 5 / 4096)).P = true ∧
      (d'.ent (uint 5 / 4096)).U = true := by
    rw [hpage]
    exact ⟨d.flush, hd₂, hP, hU⟩
  obtain ⟨ho₃, hd₃⟩ : e₃.phys.oom = e₂.phys.oom ∧ e₃.pgdir = e₂.pgdir := by
    cases hf₃ with
    | common hc => cases hc with
      | disabled => exact ⟨rfl, rfl⟩
    | store _ ha => exact access_frame ha
  have hr₃ : Ran Eager.tree Admitted e (_ ++ [(.store initSlot 5 0x41, r₃)]) e₃ :=
    .snoc hr₂ hadm hs₃ (ho₃.trans (ho₂.trans ho₁))
  rw [← hd₃] at hd₂ hadm
  obtain ⟨r₄, e₄, hs₄, hf₄, -⟩ := exists_step (.load initSlot 5) hplain₃ (by
    rintro er ⟨d', hd', hno⟩
    exact hno (hallow false (Option.some.inj (hd₂.symm.trans hd'))))
  obtain ⟨ho₄, -⟩ : e₄.phys.oom = e₃.phys.oom ∧ e₄.pgdir = e₃.pgdir := by
    cases hf₄ with
    | common hc => cases hc with
      | disabled => exact ⟨rfl, rfl⟩
    | load _ ha => exact access_frame ha
  have hr₄ : Ran Eager.tree Admitted e (_ ++ [(.load initSlot 5, r₄)]) e₄ :=
    .snoc hr₃ hadm hs₄ (ho₄.trans (ho₃.trans (ho₂.trans ho₁)))
  exact ⟨sampleLayout, sampleMachine, k, e, e₄, _, hk, he, hr₄, rfl, cow_refines_eager hk he hr₄⟩

end OsLabs.Spaces

namespace OsLabs.Lazy

open Xv6 StateError Ledger
open Base (Kmem)

section Lazy

variable [Layout] {k k' e e' : Kernel Kmem} {op : Op} {r : Result} {d : Pgdir}

/-- The operations that are compared. An `mmap` that is not refused ends below `KERNBASE`, and
`sbrk` moves by a number of pages; for the others see `Spaces.Admitted`. -/
def Admitted (e : Kernel Kmem) : Op → Prop
  | .mmap p n => argint n < 0 ∨ argint n % PGSIZE ≠ 0 ∨ (e.proc p).sz + argint n < KERNBASE
  | .sbrk p n => argint n % PGSIZE = 0 ∧ Spaces.Admitted e (.sbrk p n)
  | op => Spaces.Admitted e op

omit [Layout] in
theorem Admitted.of_ne (hop : ∀ p n, op ≠ .mmap p n) (hc : Admitted e op) :
    Spaces.Admitted e op := by
  cases op with
  | mmap p n => exact absurd rfl (hop p n)
  | sbrk p n => exact hc.2
  | _ => exact hc

/-- Where such an operation comes to an end, it is one that the processes are promised. -/
theorem Admitted.step (h : InvOf Eager.PlainOk 0 e) (hc : Admitted e op)
    (hs : Xv6.step growTree op e = .ok r e') : ∃ r a', e.spaces.stepPaged op = some (r, a') := by
  cases op with
  | mmap p n =>
    have hlt : argint n < 0 ∨ argint n % PGSIZE ≠ 0 ∨
      (e.spaces.proc p).sz + argint n < KERNBASE := hc
    dsimp only [Spaces.stepPaged]
    unfold Spaces.whenRunning Spaces.mmap
    split_ifs
    all_goals first | exact ⟨_, _, rfl⟩ | omega
  | sbrk p n =>
    dsimp only [Spaces.stepPaged]
    rw [if_pos hc.1]
    exact Spaces.Admitted.step h hc.2 hs
  | _ => exact Spaces.Admitted.step h (hc.of_ne fun _ _ he => by cases he) hs

/-- A frame is missing: a call of `kalloc` fails in the operation, or the kernel stops where it needs
a frame for a lazy page. -/
def Starves (op : Op) (k : Kernel Kmem) : Prop :=
  wp (Xv6.step tree op) (fun _ k' => k'.phys.oom = true) (fun _ _ => Short k op) k

/-- Whatever the kernel that allocates performs from boot on, the lazy kernel performs too: with the
same results, after one fault at most for each access, and without killing a process; or up to an
operation for which a frame is missing. -/
theorem lazy_refines_grown {M : Machine} {l : List (Op × Result)}
    (hk : boot M (powerOn M) = .ok () k) (h : Spaces.Ran growTree Admitted k l e') :
    (∃ l' k', Spaces.Ran tree (fun _ _ => True) k l' k' ∧ List.Forall₂ Spaces.Agrees l' l) ∨
      ∃ l₁ op l₂ k₁, l.map Prod.fst = l₁.map Prod.fst ++ op :: l₂ ∧
        Spaces.Ran tree (fun _ _ => True) k l₁ k₁ ∧ Starves op k₁ := by
  have hfollow := Spaces.Ran.follow (T := tree) (R := Together) (S := fun k op => Starves op k)
    (fun k e op r' e' hR hc hs ho => ?_) (together_boot hk) h
  · exact hfollow.imp_left fun ⟨l', k', hr, _, hl⟩ => ⟨l', k', hr, hl⟩
  · obtain ⟨r₀, a', ha⟩ := hc.step hR.plain hs
    obtain ⟨r₁, e₁, he₁, hstep⟩ := hR.step ha
    cases hs.symm.trans he₁
    cases hlazy : Xv6.step tree op k with
    | error err k' =>
      have hshort := of_error hstep hlazy
      refine Or.inr ?_
      unfold Starves wp
      rw [hlazy]
      exact hshort
    | ok r k' =>
      cases hoom : k'.phys.oom with
      | true =>
        refine Or.inr ?_
        unfold Starves wp
        rw [hlazy]
        exact hoom
      | false =>
        obtain ⟨htog, hseen, hfaults, -, hkill⟩ := of_ok hstep hlazy hoom ho
        exact Or.inl ⟨r, k', rfl, hoom, htog, rfl, hseen, hfaults, hkill⟩

/-- With enough memory `init` gets the two pages that it maps. -/
theorem grow_two (hk : Started k d) (hplain : InvOf Eager.PlainOk 0 k) :
    ∃ k' d', step growTree (.mmap initSlot 8192) k = .ok (.ret PGSIZE) k' ∧
      InvOf Eager.PlainOk 0 k' ∧ k'.phys.oom = k.phys.oom ∧
      (k'.proc initSlot).state = .RUNNING ∧ k'.pgdir initSlot = some d' ∧
      (d'.ent 1).toFlags = { P := true, W := true, U := true } := by
  have hl := live_of_running hk.running
  have hok := (hplain.of_live hl hk.dir).2
  have harg : argint 8192 = 8192 := by decide
  have hgood : ¬(argint 8192 < 0 ∨ (argint 8192).tmod PGSIZE ≠ 0) := by
    rw [harg]
    decide
  have hfree := hk.free
  have hspec := @sys_sbrk_spec _ _ _ _ _ _ _ _ hplain hl d hk.dir (.of_le hok.small.1) 8192
  unfold sys_sbrk at hspec
  simp only [wp_bind, wp_get] at hspec
  have hwp : wp (step growTree (.mmap initSlot 8192)) (fun res k' => res = .ret PGSIZE ∧
      ∃ res, MemPost 0 k initSlot (SbrkEffect (0 + k.rest initSlot) k.phys d PGSIZE 8192) res k')
      (fun _ _ => False) k := by
    refine (wp_whenRunning_of hk.running).mpr ?_
    change wp (sys_mmap_grow initSlot 8192) _ _ k
    unfold sys_mmap_grow
    rw [if_neg hgood]
    simp only [wp_bind, wp_get, wp_pure]
    refine wp_mono hspec (fun ok k' he => ⟨by rw [hk.sz], ?_⟩) fun e k' he => ?_
    · rw [hk.sz, harg] at he
      cases ok
      · exact ⟨_, he⟩
      · exact ⟨_, he⟩
    · rcases he with ⟨-, v, hge, hv, hP⟩ | ⟨-, hover⟩
      · rw [hok.tight v hge hv] at hP
        cases hP
      · exact Pgdir.not_overlaps hok.small.1 hover
  obtain ⟨res, k', hs, rfl, res, hm⟩ := wp_ok hwp
  have hm' := hm
  rw [← hk.sz] at hm'
  have hinv := hm'.sbrk_inv Eager.shape_plain hplain hl hk.dir
  obtain ⟨s', sz', d', rfl, -, -, he⟩ := hm
  rw [PGSIZE] at he
  cases he with
  | same h => omega
  | refused h =>
    rw [KERNBASE_eq] at h
    omega
  | failed _ hnew _ _ _ _ hlen =>
    simp only [pages] at hlen
    omega
  | shrunk hneg => omega
  | emptied hneg => omega
  | @grown _ _ d₁ _ hnew _ ho hg =>
    obtain rfl : sz' = 3 * 4096 := by omega
    refine ⟨_, d₁.flush, hs, hinv, ho, ?_, Kernel.setMem_self.2, ?_⟩
    · exact (congrArg Proc.state (Table.set_self ..)).trans hk.running
    · rw [Pgdir.ent_flush]
      exact hg.flags 1 (le_refl 1) (by decide)

end Lazy

/-- `init` is scheduled, maps two pages, and writes to the first one. -/
theorem lazy_refines_grown_store : ∃ (_ : Layout) (M : Machine) (k e' : Kernel Kmem)
    (l : List (Op × Result)), boot M (powerOn M) = .ok () k ∧
      Spaces.Ran growTree Admitted k l e' ∧
      l.map Prod.fst = [.sched initSlot, .mmap initSlot 8192, .store initSlot 4096 0x41] ∧
      ((∃ l' k', Spaces.Ran tree (fun _ _ => True) k l' k' ∧ List.Forall₂ Spaces.Agrees l' l) ∨
        ∃ l₁ op l₂ k₁, l.map Prod.fst = l₁.map Prod.fst ++ op :: l₂ ∧
          Spaces.Ran tree (fun _ _ => True) k l₁ k₁ ∧ Starves op k₁) := by
  let _ := sampleLayout
  obtain ⟨k, k₁, d, hboot, hs₁, hk₁⟩ := exists_scheduled
  have hr₁ : Spaces.Ran growTree Admitted k ([] ++ [(.sched initSlot, .ret 0)]) k₁ :=
    .snoc .nil trivial hs₁ hk₁.oom
  have hplain := (of_ok (boot_spec (κ := Kmem) sampleMachine) hboot).invOf Eager.shape_plain
  have hplain₁ : InvOf Eager.PlainOk 0 k₁ :=
    (effect_of_step (lazy_of_mapped (mapped_of_plain hplain)) hs₁).plain hplain
      fun _ _ he => by cases he
  obtain ⟨k₂, d₂, hs₂, hplain₂, ho₂, hrun₂, hd₂, hfl⟩ := grow_two hk₁ hplain₁
  have hadm₂ : Admitted k₁ (.mmap initSlot 8192) := by
    have harg : argint 8192 = 8192 := by decide
    refine Or.inr (Or.inr ?_)
    rw [hk₁.sz, harg]
    decide
  have hr₂ : Spaces.Ran growTree Admitted k (_ ++ [(.mmap initSlot 8192, .ret PGSIZE)]) k₂ :=
    .snoc hr₁ hadm₂ hs₂ (ho₂.trans hk₁.oom)
  have hpage : uint 4096 / 4096 = 1 := by decide
  have hadm₃ : Admitted k₂ (.store initSlot 4096 0x41) := by
    refine ⟨d₂, hd₂, ?_, ?_⟩
    · rw [hpage, hfl]
    · rw [hpage, hfl]
  obtain ⟨k₃, hs₃, ho₃⟩ := @step_store _ _ _ _ _ 4096 0x41
    (lazy_of_mapped (mapped_of_plain hplain₂)) hrun₂ hd₂ (by rw [hpage, Pte.permits, hfl]; rfl)
  rw [← step_grow fun _ _ he => by cases he] at hs₃
  have hr₃ : Spaces.Ran growTree Admitted k (_ ++ [(.store initSlot 4096 0x41, .written 0)]) k₃ :=
    .snoc hr₂ hadm₃ hs₃ (ho₃.trans (ho₂.trans hk₁.oom))
  exact ⟨sampleLayout, sampleMachine, k, k₃, _, hboot, hr₃, rfl, lazy_refines_grown hboot hr₃⟩

end OsLabs.Lazy
