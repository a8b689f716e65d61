import OsLabs.Lib.Along
import OsLabs.Xv6.Boot
import Mathlib.Logic.Relation

/-!
# Waiting for children

A process in `wait` sleeps on its own slot, and `exit` wakes the parent of the process that exits,
or `init` for the zombies that it passes on. No wakeup is lost, and processes that wait do not wait
in a circle.

* `Alike` and the `along` lemmas: most of the kernel leaves the table alone, up to sizes and the
  mark of a killed process;
* `Lineage`: what holds of parents and of processes that sleep; `lineage_step` keeps it, whatever
  the tree does at a fault and in `copyuvm`;
* `Lineage.waits`, `Lineage.awake`: a process that sleeps has some descendant that can run, and some
  process can run;
* `attentive_of_reachable`: this holds in every state that the kernel reaches.
-/

namespace OsLabs.Xv6

open StateError

section Alike

variable {κ α : Type}

/-- The same table, up to sizes and the mark of a killed process. -/
def Table.Alike (t t' : Table) : Prop := ∀ q, (t' q).state = (t q).state ∧
  (t' q).chan = (t q).chan ∧ (t' q).parent = (t q).parent ∧ (t' q).pid = (t q).pid

/-- The same table up to sizes and marks, and the same counters. -/
structure Alike (k k' : Kernel κ) : Prop where
  proc : k.proc.Alike k'.proc
  nextpid : k'.nextpid = k.nextpid
  initproc : k'.initproc = k.initproc

theorem Table.Alike.refl (t : Table) : t.Alike t := fun _ => ⟨rfl, rfl, rfl, rfl⟩

theorem Table.Alike.trans {t t' t'' : Table} (h : t.Alike t') (h' : t'.Alike t'') : t.Alike t'' :=
  fun q => ⟨(h' q).1.trans (h q).1, (h' q).2.1.trans (h q).2.1, (h' q).2.2.1.trans (h q).2.2.1,
    (h' q).2.2.2.trans (h q).2.2.2⟩

/-- Slots that are alike are given the same new contents. -/
theorem Table.Alike.set {t t' : Table} {p : ProcPtr} {f f' : Proc → Proc}
    (h : ∀ q, q ≠ p → (t' q).state = (t q).state ∧ (t' q).chan = (t q).chan ∧
      (t' q).parent = (t q).parent ∧ (t' q).pid = (t q).pid)
    (hp : (f' (t' p)).state = (f (t p)).state ∧ (f' (t' p)).chan = (f (t p)).chan ∧
      (f' (t' p)).parent = (f (t p)).parent ∧ (f' (t' p)).pid = (f (t p)).pid) :
    (t.set p f).Alike (t'.set p f') := by
  intro q
  by_cases hq : q = p
  · rw [hq, Table.set_self, Table.set_self]
    exact hp
  · rw [Table.set_ne _ _ hq, Table.set_ne _ _ hq]
    exact h q hq

theorem Alike.of_eq {k k' : Kernel κ} (h : k'.proc = k.proc) (hn : k'.nextpid = k.nextpid)
    (hi : k'.initproc = k.initproc) : Alike k k' :=
  ⟨by rw [h]; exact .refl _, hn, hi⟩

instance : Std.Refl (Alike (κ := κ)) := ⟨fun _ => .of_eq rfl rfl rfl⟩

instance : IsTrans (Kernel κ) Alike where
  trans _ _ _ h h' := ⟨h.proc.trans h'.proc, h'.nextpid.trans h.nextpid,
    h'.initproc.trans h.initproc⟩

theorem along_onPhys (m : K κ α) : Along Alike (onPhys m) :=
  .zoom (fun _ _ => .of_eq rfl rfl rfl) m

theorem along_setPgdir (p : ProcPtr) (d : Option Pgdir) : Along (Alike (κ := κ)) (setPgdir p d) :=
  .modify fun _ => .of_eq rfl rfl rfl

/-- A new size, or a mark. -/
theorem along_setProc {p : ProcPtr} {f : Proc → Proc} (h : ∀ q, (f q).state = q.state ∧
    (f q).chan = q.chan ∧ (f q).parent = q.parent ∧ (f q).pid = q.pid) :
    Along (Alike (κ := κ)) (setProc p f) := by
  refine .modify fun k => ⟨fun q => ?_, rfl, rfl⟩
  dsimp only
  rw [Table.set_apply]
  split
  · rename_i hq
    rw [hq]
    exact h _
  · exact ⟨rfl, rfl, rfl, rfl⟩

theorem along_getPgdir (p : ProcPtr) : Along (Alike (κ := κ)) (getPgdir p) :=
  .get_bind fun k => by
    cases k.pgdir p with
    | none => exact .throw _
    | some d => exact .pure _

theorem along_lcr3 (p : ProcPtr) : Along (Alike (κ := κ)) (lcr3 p) :=
  .bind (along_getPgdir p) fun _ => along_setPgdir _ _

theorem along_switchuvm (p : ProcPtr) : Along (Alike (κ := κ)) (switchuvm p) :=
  .get_bind fun _ => .ite (.throw _) (.ite (.throw _) (along_lcr3 p))

variable [Kalloc κ]

theorem along_kfreeKstack (p : ProcPtr) : Along (Alike (κ := κ)) (kfreeKstack p) :=
  .get_bind fun k => by
    cases k.kstack p with
    | none => exact .throw _
    | some f => exact along_onPhys _

omit [Kalloc κ] in
theorem along_growprocEnd (p : ProcPtr) (n : ℤ) (r : ℕ × Pgdir) :
    Along (Alike (κ := κ)) (growprocEnd p n r) :=
  .bind (along_setPgdir _ _) fun _ => .ite (.pure _)
    (.bind (along_setProc fun _ => ⟨rfl, rfl, rfl, rfl⟩) fun _ =>
      .bind (along_switchuvm p) fun _ => .pure _)

theorem along_growproc (p : ProcPtr) (n : ℤ) : Along (Alike (κ := κ)) (growproc p n) :=
  .bind (along_getPgdir p) fun _ => .get_bind fun _ =>
    .ite (.bind (along_onPhys _) fun _ => along_growprocEnd _ _ _)
      (.ite (.bind (along_onPhys _) fun _ => along_growprocEnd _ _ _) (along_growprocEnd _ _ _))

theorem along_sbrk (p : ProcPtr) (n : ℤ) : Along (Alike (κ := κ)) (sys_sbrk p n) :=
  .get_bind fun _ => .bind (along_growproc p _) fun _ => .ite (.pure _) (.pure _)

variable [Layout]

theorem along_exec (p : ProcPtr) (ip : Option Inode) (argv : List (List UInt8)) :
    Along (Alike (κ := κ)) (exec p ip argv) := by
  unfold exec
  cases ip with
  | none => exact .pure _
  | some ip =>
    refine .ite (.pure _) (.ite (.pure _) (.bind (along_onPhys _) fun res => ?_))
    cases res with
    | none => exact .pure _
    | some d =>
      refine .bind (along_onPhys _) fun res => ?_
      obtain ⟨sz, d'⟩ := res
      cases sz with
      | none => exact .bind (along_onPhys _) fun _ => .pure _
      | some sz =>
        refine .get_bind fun k => .bind (along_setPgdir _ _) fun _ => .bind
          (along_setProc fun _ => ⟨rfl, rfl, rfl, rfl⟩) fun _ => .bind (along_switchuvm p) fun _ => ?_
        cases k.pgdir p with
        | none => exact .bind (.throw _) fun _ => .pure _
        | some d => exact .bind (along_onPhys _) fun _ => .pure _

end Alike

/-! ## What `exit` does to processes that sleep -/

namespace Table

variable {t t' : Table} {cur p q : ProcPtr} {initproc : Option ProcPtr}

/-- Who does not sleep is not put to sleep. -/
theorem Like.state_ne (h : t.Like cur t') (hp : (t p).state ≠ .SLEEPING) :
    (t' p).state ≠ .SLEEPING := by
  rcases (h p).2.2.1 with e | ⟨e, -⟩
  · rwa [e]
  · exact absurd e hp

theorem wakeup1_chan (chan : Option ProcPtr) : (t.wakeup1 chan p).chan = (t p).chan := by
  unfold wakeup1
  split <;> rfl

theorem wakeup1_woken (h : (t p).chan = initproc) :
    (t.wakeup1 initproc p).state ≠ .SLEEPING := by
  unfold wakeup1
  split
  · simp
  · rename_i hn
    exact fun e => hn ⟨e, h⟩

theorem abandon_chan : (abandon cur initproc t q p).chan = (t p).chan := by
  have hset : ∀ x, ((t.set q fun r => { r with parent := x }) p).chan = (t p).chan := fun x => by
    rw [set_apply]
    split
    · rename_i h
      rw [h]
    · rfl
  unfold abandon
  split
  · dsimp only
    split
    · rw [wakeup1_chan, hset]
    · rw [hset]
  · rfl

theorem foldl_abandon_chan {ps : List ProcPtr} : ∀ {t : Table},
    (ps.foldl (abandon cur initproc) t p).chan = (t p).chan := by
  induction ps with
  | nil => exact rfl
  | cons q ps ih =>
    intro t
    rw [List.foldl_cons, ih, abandon_chan]

theorem exit_chan : (t.exit cur initproc p).chan = (t p).chan := by
  unfold exit
  rw [set_apply]
  split
  · rename_i h
    rw [h, foldl_abandon_chan, wakeup1_chan]
  · rw [foldl_abandon_chan, wakeup1_chan]

/-- A zombie that is passed on wakes `init`. -/
theorem foldl_abandon_woken {i : ProcPtr} {ps : List ProcPtr} (hi : initproc = some i)
    (hq : q ∈ ps) : ∀ {t : Table}, (t i).chan = some i → (t q).parent = some cur →
      (t q).state = .ZOMBIE → (ps.foldl (abandon cur initproc) t i).state ≠ .SLEEPING := by
  induction ps with
  | nil => exact absurd hq List.not_mem_nil
  | cons p ps ih =>
    intro t hchan hpar hst
    rw [List.foldl_cons]
    by_cases hqp : q = p
    · subst hqp
      refine (like_foldl_abandon cur initproc ps _).state_ne ?_
      unfold abandon
      rw [if_pos hpar, set_self, if_pos hst]
      refine wakeup1_woken ?_
      rw [hi, set_apply]
      split
      · rename_i h
        rw [← h]
        exact hchan
      · exact hchan
    · refine ih ((List.mem_cons.mp hq).resolve_left hqp) (abandon_chan.trans hchan) ?_ ?_
      · rw [abandon_parent_ne hqp, hpar]
      · rcases (like_abandon cur initproc t p q).2.2.1 with e | ⟨e, -⟩
        · rw [e, hst]
        · rw [hst] at e
          cases e

/-- Who sleeps after the exit of `cur` has slept before, is not its parent, and has not got a zombie
from it. -/
theorem exit_asleep (h : (t.exit cur initproc p).state = .SLEEPING) (hchan : (t p).chan = some p) :
    p ≠ cur ∧ (t p).state = .SLEEPING ∧ (t cur).parent ≠ some p ∧
      (initproc = some p → ∀ q, (t q).parent = some cur → (t q).state ≠ .ZOMBIE) := by
  have hne : p ≠ cur := fun e => by
    rw [e, exit_state_self] at h
    cases h
  have hloop : ((List.finRange NPROC).foldl (abandon cur initproc)
      (t.wakeup1 (t cur).parent) p).state = .SLEEPING := by
    have hexit : t.exit cur initproc = ((List.finRange NPROC).foldl (abandon cur initproc)
        (t.wakeup1 (t cur).parent)).set cur fun q => { q with state := .ZOMBIE } := rfl
    rw [hexit, set_ne _ _ hne] at h
    exact h
  have hlike := like_foldl_abandon cur initproc (List.finRange NPROC) (t.wakeup1 (t cur).parent)
  refine ⟨hne, ?_, fun hpar => ?_, fun hi q hq hz => ?_⟩
  · rcases exit_state_ne t cur initproc hne with e | ⟨e, -⟩
    · rw [← e, h]
    · exact e
  · exact hlike.state_ne (wakeup1_woken (hchan.trans hpar.symm)) hloop
  · have hq' : ((t.wakeup1 (t cur).parent) q).parent = some cur := by
      unfold wakeup1
      split <;> exact hq
    have hz' : ((t.wakeup1 (t cur).parent) q).state = .ZOMBIE := by
      unfold wakeup1
      rw [if_neg (by simp [hz]), hz]
    exact foldl_abandon_woken hi (List.mem_finRange q) ((wakeup1_chan _).trans hchan) hq' hz'
      hloop

end Table

/-! ## The invariant -/

/-- Parents are older than their children and have not come to an end, and `init` is the oldest. A
process that sleeps has a child, and none of its children has exited. -/
structure Lineage (t : Table) (i : ProcPtr) (nextpid : ℕ) : Prop where
  unused : ∀ q, (t q).state = .UNUSED → (t q).parent = none
  settled : ∀ q, (t q).state ≠ .EMBRYO
  active : ∀ q p, (t q).parent = some p → (t p).state ≠ .UNUSED ∧ (t p).state ≠ .ZOMBIE
  older : ∀ q p, (t q).parent = some p → (t p).pid < (t q).pid
  pid_lt : ∀ q, (t q).state ≠ .UNUSED → (t q).pid < nextpid
  init : (t i).state ≠ .UNUSED ∧ (t i).state ≠ .ZOMBIE
  first : ∀ q, (t q).state ≠ .UNUSED → q ≠ i → (t i).pid < (t q).pid
  chan : ∀ p, (t p).state = .SLEEPING → (t p).chan = some p
  child : ∀ p, (t p).state = .SLEEPING → ∃ q, (t q).parent = some p
  zombie : ∀ p q, (t p).state = .SLEEPING → (t q).parent = some p → (t q).state ≠ .ZOMBIE

namespace Lineage

variable {t t' : Table} {i cur p q : ProcPtr} {n : ℕ}

/-- A process that can run goes on as one that can run. -/
theorem run (h : Lineage t i n) {f : Proc → Proc} (hp : (t p).state ≠ .UNUSED)
    (hf : (f (t p)).state = .RUNNABLE ∨ (f (t p)).state = .RUNNING)
    (hpar : (f (t p)).parent = (t p).parent) (hpid : (f (t p)).pid = (t p).pid) :
    Lineage (t.set p f) i n := by
  have hself := t.set_self p f
  have hne : ∀ q, q ≠ p → t.set p f q = t q := fun q hq => t.set_ne f hq
  obtain ⟨h₁, h₂, h₃, h₄, h₅, h₆, h₇, h₈, h₉, h₁₀⟩ := h
  generalize t.set p f = t' at hself hne
  constructor <;> grind

/-- A running process goes to sleep because it has a child and none has exited. -/
theorem sleep (h : Lineage t i n) (hp : (t p).state = .RUNNING)
    (hz : t.first (Table.zombieOf p) = none) (hkid : ¬(t.first (·.parent = some p)).isNone) :
    Lineage (t.set p fun q => { q with chan := some p, state := .SLEEPING }) i n := by
  have hself := t.set_self p fun q => { q with chan := some p, state := .SLEEPING }
  have hne : ∀ q, q ≠ p → (t.set p fun q => { q with chan := some p, state := .SLEEPING }) q = t q :=
    fun q hq => t.set_ne _ hq
  have hno : ∀ q, (t q).parent = some p → (t q).state ≠ .ZOMBIE := fun q hq hs => by
    have := Table.first_none hz q
    rw [Bool.eq_false_iff] at this
    exact this (Table.zombieOf_iff.mpr ⟨hq, hs⟩)
  obtain ⟨c, hc⟩ : ∃ c, (t c).parent = some p := by
    rw [Option.isNone_iff_eq_none] at hkid
    obtain ⟨c, hc⟩ := Option.ne_none_iff_exists'.mp hkid
    exact ⟨c, by simpa using Table.first_some hc⟩
  obtain ⟨h₁, h₂, h₃, h₄, h₅, h₆, h₇, h₈, h₉, h₁₀⟩ := h
  generalize t.set p (fun q => { q with chan := some p, state := .SLEEPING }) = t' at hself hne
  constructor <;> grind

/-- A running process has a child in a slot that was free. -/
theorem born (h : Lineage t i n) {f : Proc → Proc} (hp : (t p).state = .RUNNING)
    (hq : (t q).state = .UNUSED) (hf : (f (t q)).state = .RUNNABLE)
    (hpar : (f (t q)).parent = some p) (hpid : (f (t q)).pid = n) :
    Lineage (t.set q f) i (n + 1) := by
  have hself := t.set_self q f
  have hne : ∀ r, r ≠ q → t.set q f r = t r := fun r hr => t.set_ne f hr
  obtain ⟨h₁, h₂, h₃, h₄, h₅, h₆, h₇, h₈, h₉, h₁₀⟩ := h
  generalize t.set q f = t' at hself hne
  constructor <;> grind

/-- A pid is spent. -/
theorem spend (h : Lineage t i n) : Lineage t i (n + 1) :=
  { h with pid_lt := fun q hq => Nat.lt_succ_of_lt (h.pid_lt q hq) }

/-- A slot goes out of use, or changes out of use. -/
theorem free (h : Lineage t i n) {f : Proc → Proc}
    (hq : (t q).state = .UNUSED ∨ (t q).state = .ZOMBIE) (hf : (f (t q)).state = .UNUSED)
    (hpar : (f (t q)).parent = none) : Lineage (t.set q f) i n := by
  have hself := t.set_self q f
  have hne : ∀ r, r ≠ q → t.set q f r = t r := fun r hr => t.set_ne f hr
  obtain ⟨h₁, h₂, h₃, h₄, h₅, h₆, h₇, h₈, h₉, h₁₀⟩ := h
  generalize t.set q f = t' at hself hne
  constructor <;> grind

/-- A process other than `init` exits. -/
theorem exit (h : Lineage t i n) (hp : (t p).state = .RUNNING) (hi : i ≠ p) :
    Lineage (t.exit p (some i)) i n := by
  have hinit : some i ≠ some p := fun e => hi (Option.some.inj e)
  have hself := t.exit_state_self p (some i)
  have hne : ∀ q, q ≠ p → _ := fun q hq => t.exit_state_ne p (some i) hq
  have hpid : ∀ q, (t.exit p (some i) q).pid = (t q).pid := t.exit_pid p (some i)
  have hkeep : ∀ q, (t q).parent ≠ some p → _ := fun q hq => t.exit_parent_of_ne p (some i) hq
  have hpass : ∀ q, (t q).parent = some p → _ := fun q hq => t.exit_parent_of_eq p (some i) hinit hq
  have hchan : ∀ q, (t.exit p (some i) q).chan = (t q).chan := fun q => Table.exit_chan
  have hasleep : ∀ q, (t.exit p (some i) q).state = .SLEEPING → (t q).chan = some q → _ :=
    fun q hq hc => Table.exit_asleep hq hc
  obtain ⟨h₁, h₂, h₃, h₄, h₅, h₆, h₇, h₈, h₉, h₁₀⟩ := h
  generalize t.exit p (some i) = t' at *
  constructor <;> grind

/-! ## Descendants -/

/-- A process that sleeps has a descendant that can run. -/
theorem waits (h : Lineage t i n) (hp : (t p).state = .SLEEPING) :
    ∃ q, Relation.TransGen (fun a b => (t b).parent = some a) p q ∧
      ((t q).state = .RUNNABLE ∨ (t q).state = .RUNNING) := by
  -- pids grow towards the children, and are bounded
  have hall : ∀ m p, n - (t p).pid = m → (t p).state = .SLEEPING →
      ∃ q, Relation.TransGen (fun a b => (t b).parent = some a) p q ∧
        ((t q).state = .RUNNABLE ∨ (t q).state = .RUNNING) := by
    intro m
    induction m using Nat.strong_induction_on with
    | _ m ih =>
      intro p hm hp
      obtain ⟨q, hq⟩ := h.child p hp
      have hlive : (t q).state ≠ .UNUSED := fun e => by
        rw [h.unused q e] at hq
        cases hq
      have hz := h.zombie p q hp hq
      have he := h.settled q
      have hlt := h.older q p hq
      have hbound := h.pid_lt q hlive
      cases hs : (t q).state with
      | UNUSED => exact absurd hs hlive
      | EMBRYO => exact absurd hs he
      | ZOMBIE => exact absurd hs hz
      | RUNNABLE => exact ⟨q, .single hq, Or.inl hs⟩
      | RUNNING => exact ⟨q, .single hq, Or.inr hs⟩
      | SLEEPING =>
        obtain ⟨r, hr, hready⟩ := ih (n - (t q).pid) (by omega) q rfl hs
        exact ⟨r, .head hq hr, hready⟩
  exact hall _ p rfl hp

/-- Some process can run. -/
theorem awake (h : Lineage t i n) : ∃ q, (t q).state = .RUNNABLE ∨ (t q).state = .RUNNING := by
  have hi := h.init
  have he := h.settled i
  cases hs : (t i).state with
  | UNUSED => exact absurd hs hi.1
  | EMBRYO => exact absurd hs he
  | ZOMBIE => exact absurd hs hi.2
  | RUNNABLE => exact ⟨i, Or.inl hs⟩
  | RUNNING => exact ⟨i, Or.inr hs⟩
  | SLEEPING =>
    obtain ⟨q, -, hq⟩ := h.waits hs
    exact ⟨q, hq⟩

theorem congr (h : Lineage t i n) (ht : t.Alike t') : Lineage t' i n := by
  obtain ⟨h₁, h₂, h₃, h₄, h₅, h₆, h₇, h₈, h₉, h₁₀⟩ := h
  have hs := fun q => (ht q).1
  have hc := fun q => (ht q).2.1
  have hp := fun q => (ht q).2.2.1
  have hd := fun q => (ht q).2.2.2
  constructor <;> grind

end Lineage

/-! ## The operations -/

section Steps

variable {κ : Type} {k k' : Kernel κ} {i p : ProcPtr}

/-- The invariant of the kernel, where `i` is `init`. -/
def Kernel.lineage (i : ProcPtr) (k : Kernel κ) : Prop :=
  k.initproc = some i ∧ Lineage k.proc i k.nextpid

/-- Some process can run, and whoever sleeps in `wait` has no child that has exited, but some
descendant that can run. -/
def Kernel.Attentive (k : Kernel κ) : Prop :=
  (∃ q, (k.proc q).state = .RUNNABLE ∨ (k.proc q).state = .RUNNING) ∧
  ∀ p, (k.proc p).state = .SLEEPING →
    (∀ q, (k.proc q).parent = some p → (k.proc q).state ≠ .ZOMBIE) ∧
    ∃ q, Relation.TransGen (fun a b => (k.proc b).parent = some a) p q ∧
      ((k.proc q).state = .RUNNABLE ∨ (k.proc q).state = .RUNNING)

theorem Kernel.lineage.attentive (h : k.lineage i) : k.Attentive :=
  ⟨h.2.awake, fun p hp => ⟨fun q => h.2.zombie p q hp, h.2.waits hp⟩⟩

theorem Kernel.lineage.alike (h : k.lineage i) (hk : Alike k k') : k'.lineage i :=
  ⟨hk.initproc.trans h.1, by rw [hk.nextpid]; exact h.2.congr hk.proc⟩

theorem Kernel.lineage.exit (h : k.lineage i) (hp : (k.proc p).state = .RUNNING)
    (hi : k.initproc ≠ some p) :
    Kernel.lineage i { k with proc := k.proc.exit p k.initproc } := by
  have hne : i ≠ p := fun e => hi (by rw [← e]; exact h.1)
  refine ⟨h.1, ?_⟩
  rw [h.1]
  exact h.2.exit hp hne

/-- A computation that leaves the table alone. -/
theorem Kernel.lineage.along {α : Type} {m : KM κ α} (h : k.lineage i) (hm : Along Alike m) :
    wp m (fun _ k' => k'.lineage i) (fun _ _ => True) k :=
  wp_mono (hm k) (fun _ _ hk => h.alike hk) fun _ _ h => h

variable [Kalloc κ]

theorem lineage_allocproc (h : k.lineage i) :
    wp (allocproc : KM κ _) (fun res k' => match res with
      | none => k'.lineage i
      | some np => (k.proc np).state = .UNUSED ∧
        Alike { k with
          proc := k.proc.set np fun q => { q with state := .EMBRYO, pid := k.nextpid }
          nextpid := k.nextpid + 1 } k') (fun _ _ => True) k := by
  unfold allocproc
  simp only [wp_bind, wp_get]
  cases hnp : k.proc.first (·.state = .UNUSED) with
  | none => exact h
  | some np =>
    have hun : (k.proc np).state = .UNUSED := by simpa using Table.first_some hnp
    dsimp only
    split
    · trivial
    simp only [wp_bind, wp_set]
    refine wp_mono (along_onPhys kalloc _) (fun res k₁ h₁ => ?_) fun _ _ h => h
    cases res with
    | none =>
      simp only [wp_bind, wp_setKstack, wp_setProc, wp_pure]
      refine ⟨h₁.initproc.trans h.1, ?_⟩
      have hfree := (h.2.free (f := fun q => { q with pid := k.nextpid, state := .UNUSED })
        (Or.inl hun) rfl (h.2.unused np hun)).spend
      rw [h₁.nextpid]
      refine hfree.congr (.set (fun q hq => ?_) ?_)
      · have := h₁.proc q
        dsimp only at this
        rwa [Table.set_ne _ _ hq] at this
      · have := h₁.proc np
        dsimp only at this
        rw [Table.set_self] at this
        exact ⟨rfl, this.2⟩
    | some f =>
      simp only [wp_bind, wp_setKstack, wp_pure]
      exact ⟨hun, h₁.proc, h₁.nextpid, h₁.initproc⟩

theorem lineage_fork {copyuvm : Pgdir → ℕ → K κ (Option Pgdir × Pgdir)} {reload : Bool}
    (h : k.lineage i) (hp : (k.proc p).state = .RUNNING) :
    wp (forkWith copyuvm reload p) (fun _ k' => k'.lineage i) (fun _ _ => True) k := by
  unfold forkWith
  simp only [wp_bind]
  refine wp_mono (lineage_allocproc h) (fun res k₁ h₁ => ?_) fun _ _ h => h
  cases res with
  | none => exact h₁
  | some np =>
    obtain ⟨hun, h₁⟩ := h₁
    have hne : np ≠ p := fun e => by
      rw [e, hp] at hun
      cases hun
    -- the slot `np` is filled in, in a table that is otherwise the one of `k`
    have hend : ∀ {k₂ : Kernel κ} {f g : Proc → Proc}, Alike k₁ k₂ →
        (∀ q q', q'.chan = q.chan → q'.parent = q.parent → q'.pid = k.nextpid →
          (f q').state = (g q).state ∧ (f q').chan = (g q).chan ∧
            (f q').parent = (g q).parent ∧ (f q').pid = (g q).pid) →
        Lineage (k.proc.set np g) i (k.nextpid + 1) →
        Kernel.lineage i { k₂ with proc := k₂.proc.set np f } := by
      intro k₂ f g h₂ hf hg
      have hall := IsTrans.trans _ _ _ h₁ h₂
      refine ⟨hall.initproc.trans h.1, ?_⟩
      have hn : k₂.nextpid = k.nextpid + 1 := hall.nextpid
      rw [hn]
      refine hg.congr (.set (fun q hq => ?_) ?_)
      · have := hall.proc q
        dsimp only at this
        rwa [Table.set_ne _ _ hq] at this
      · have := hall.proc np
        dsimp only at this
        rw [Table.set_self] at this
        exact hf _ _ this.2.1 this.2.2.1 this.2.2.2
    simp only [wp_bind]
    refine wp_mono (along_getPgdir p k₁) (fun d k₂ h₂ => ?_) fun _ _ h => h
    simp only [wp_get]
    refine wp_mono (along_onPhys _ k₂) (fun r k₃ h₃ => ?_) fun _ _ h => h
    have h₃ := IsTrans.trans _ _ _ h₂ h₃
    simp only [wp_setPgdir]
    cases r.1 with
    | none =>
      simp only [wp_bind]
      refine wp_mono (along_kfreeKstack np _) (fun _ k₄ h₄ => ?_) fun _ _ h => h
      simp only [wp_setKstack, wp_setProc, wp_pure]
      have h₄ : Alike k₁ { k₄ with kstack := Function.update k₄.kstack np none } :=
        ⟨h₃.proc.trans h₄.proc, h₄.nextpid.trans h₃.nextpid, h₄.initproc.trans h₃.initproc⟩
      have hfree := (h.2.free (f := fun q => { q with pid := k.nextpid, state := .UNUSED })
        (Or.inl hun) rfl (h.2.unused np hun)).spend
      exact @hend { k₄ with kstack := Function.update k₄.kstack np none } _
        (fun q => { q with pid := k.nextpid, state := .UNUSED }) h₄
        (fun q q' hc hpar hpid => ⟨rfl, hc, hpar, hpid⟩) hfree
    | some d₂ =>
      have hborn := h.2.born (f := fun q =>
        { q with parent := some p, state := .RUNNABLE, pid := k.nextpid }) hp hun rfl rfl rfl
      have hlast : ∀ {k₄ : Kernel κ} {sz : ℕ}, Alike k₁ k₄ → Kernel.lineage i { k₄ with
          proc := k₄.proc.set np fun q =>
            { q with sz := sz, parent := some p, state := .RUNNABLE } } :=
        fun h₄ => @hend _ _ (fun q =>
          { q with parent := some p, state := .RUNNABLE, pid := k.nextpid }) h₄
          (fun q q' hc _ hpid => ⟨rfl, hc, rfl, hpid⟩) hborn
      cases reload with
      | false =>
        simp only [Bool.false_eq_true, if_false, wp_bind, wp_pure, wp_setProc, wp_get]
        exact hlast ⟨h₃.proc, h₃.nextpid, h₃.initproc⟩
      | true =>
        simp only [if_true, wp_bind]
        refine wp_mono (along_switchuvm p _) (fun _ k₄ h₄ => ?_) fun _ _ h => h
        simp only [wp_setProc, wp_get, wp_pure]
        exact hlast ⟨h₃.proc.trans h₄.proc, h₄.nextpid.trans h₃.nextpid,
          h₄.initproc.trans h₃.initproc⟩

omit [Kalloc κ] in
/-- A page fault leaves the table alone, or the process exits. -/
theorem lineage_access {T : Tree κ} (h : k.lineage i) (hp : (k.proc p).state = .RUNNING) {va : ℕ}
    {w : Option UInt8} : ∀ {fuel n : ℕ},
    wp (access T p va w fuel n) (fun _ k' => k'.lineage i) (fun _ _ => True) k := by
  intro fuel
  induction fuel generalizing k with
  | zero => exact trivial
  | succ fuel ih =>
    intro n
    unfold access
    simp only [wp_bind]
    refine wp_mono (along_getPgdir p k) (fun d k₁ h₁ => ?_) fun _ _ h => h
    have hl₁ := h.alike h₁
    have hp₁ := (h₁.proc p).1.trans hp
    cases (d.find va).filter (·.permits w.isSome) with
    | some e =>
      cases w with
      | none =>
        simp only [wp_bind, wp_get, wp_pure]
        exact hl₁
      | some b =>
        simp only [wp_bind]
        refine wp_mono (along_onPhys _ k₁) (fun _ k₂ h₂ => ?_) fun _ _ h => h
        exact hl₁.alike h₂
    | none =>
      unfold trapPgflt
      simp only [wp_bind]
      refine wp_mono (along_getPgdir p k₁) (fun d₁ k₂ h₂ => ?_) fun _ _ h => h
      refine wp_mono (along_onPhys _ k₂) (fun r k₃ h₃ => ?_) fun _ _ h => h
      have h₃ := IsTrans.trans _ _ _ h₂ h₃
      cases r with
      | none =>
        have hkilled : Alike k₃ { k₃ with proc := k₃.proc.set p fun q => { q with killed := true } } :=
          along_setProc (p := p) (f := fun q => { q with killed := true })
            (fun _ => ⟨rfl, rfl, rfl, rfl⟩) k₃
        have h₄ := IsTrans.trans _ _ _ h₃ hkilled
        have hl₄ := hl₁.alike h₄
        have hp₄ := (h₄.proc p).1.trans hp₁
        unfold exit
        simp only [wp_bind, wp_setProc, wp_get]
        by_cases hi : k₃.initproc = some p
        · rw [if_pos hi]
          trivial
        · rw [if_neg hi]
          simp only [wp_set, wp_pure, Bool.false_eq_true, if_false]
          exact hl₄.exit hp₄ hi
      | some d₂ =>
        simp only [wp_bind, wp_setPgdir]
        have hgo : ∀ k₅, Alike k₁ k₅ → wp (access T p va w fuel (n + 1))
            (fun _ k' => k'.lineage i) (fun _ _ => True) k₅ :=
          fun k₅ h₅ => ih (hl₁.alike h₅) ((h₅.proc p).1.trans hp₁)
        have hset : Alike k₁ { k₃ with pgdir := Function.update k₃.pgdir p (some d₂) } :=
          ⟨h₃.proc, h₃.nextpid, h₃.initproc⟩
        cases T.switch with
        | true =>
          simp only [if_true, wp_bind]
          refine wp_mono (along_switchuvm p _) (fun _ k₅ h₅ => ?_) fun _ _ h => h
          simp only [wp_pure, if_true]
          exact hgo k₅ (IsTrans.trans _ _ _ hset h₅)
        | false =>
          simp only [Bool.false_eq_true, if_false, wp_bind]
          refine wp_mono (along_lcr3 p _) (fun _ k₅ h₅ => ?_) fun _ _ h => h
          simp only [wp_pure, if_true]
          exact hgo k₅ (IsTrans.trans _ _ _ hset h₅)

/-- `wait` reaps a child that has exited, or sleeps because there is none. -/
theorem lineage_wait (h : k.lineage i) (hp : (k.proc p).state = .RUNNING) :
    wp (wait p) (fun _ k' => k'.lineage i) (fun _ _ => True) k := by
  unfold wait
  simp only [wp_bind, wp_get]
  cases hz : k.proc.first (Table.zombieOf p) with
  | some q =>
    have hq := (Table.zombieOf_iff.mp (Table.first_some hz)).2
    simp only [wp_bind]
    refine wp_mono (along_kfreeKstack q k) (fun _ k₁ h₁ => ?_) fun _ _ h => h
    simp only [wp_setKstack]
    have hlast : ∀ k₂, Alike k k₂ → Kernel.lineage i { k₂ with proc := k₂.proc.reap q } :=
      fun k₂ h₂ => ⟨h₂.initproc.trans h.1,
        (h.alike h₂).2.free (f := fun r => { r with
          pid := 0, parent := none, killed := false, state := .UNUSED })
          (Or.inr ((h₂.proc q).1.trans hq)) rfl rfl⟩
    cases k.pgdir q with
    | none => trivial
    | some d =>
      simp only [wp_bind]
      refine wp_mono (along_onPhys _ _) (fun _ k₂ h₂ => ?_) fun _ _ h => h
      simp only [wp_modify, wp_pure]
      exact hlast k₂ ⟨h₁.proc.trans h₂.proc, h₂.nextpid.trans h₁.nextpid,
        h₂.initproc.trans h₁.initproc⟩
  | none =>
    dsimp only
    split
    · exact h
    · rename_i hno
      simp only [wp_bind, wp_setProc, wp_pure]
      exact ⟨h.1, h.2.sleep hp hz fun hkid => hno (Or.inl hkid)⟩

/-- `wait` goes to sleep because no child has exited. -/
theorem step_wait_sleep [Layout] {T : Tree κ} {q : ProcPtr}
    (hp : (k.proc p).state = .RUNNING) (hz : ∀ r, (k.proc r).state ≠ .ZOMBIE)
    (hq : (k.proc q).parent = some p) (hk : (k.proc p).killed = false) :
    step T (.wait p) k = .ok .slept
      { k with proc := k.proc.set p fun q => { q with chan := some p, state := .SLEEPING } } := by
  refine eq_ok_of_wp ((wp_whenRunning_of hp).mpr ?_)
  have hnone : k.proc.first (Table.zombieOf p) = none := by
    cases h : k.proc.first (Table.zombieOf p) with
    | none => rfl
    | some r => exact absurd (Table.zombieOf_iff.mp (Table.first_some h)).2 (hz r)
  have hkid : ¬((k.proc.first (·.parent = some p)).isNone ∨ (k.proc p).killed) := by
    rintro (h | h)
    · rw [Option.isNone_iff_eq_none] at h
      have := Table.first_none h q
      rw [hq] at this
      simp at this
    · rw [hk] at h
      cases h
  unfold wait
  simp only [wp_bind, wp_get, hnone, if_neg hkid, wp_setProc, wp_pure]
  exact ⟨trivial, trivial⟩

/-- Every operation keeps the invariant, whatever the tree does at a fault and in `copyuvm`. -/
theorem lineage_step [Layout] {T : Tree κ} (hT : ∀ p n, Along Alike (T.mmap p n))
    (h : k.lineage i) (op : Op) :
    wp (step T op) (fun _ k' => k'.lineage i) (fun _ _ => True) k := by
  have hrun : ∀ {p : ProcPtr} {m : KM κ Result}, ((k.proc p).state = .RUNNING →
      wp m (fun _ k' => k'.lineage i) (fun _ _ => True) k) →
      wp (whenRunning p m) (fun _ k' => k'.lineage i) (fun _ _ => True) k :=
    fun hm => wp_whenRunning hm fun _ => h
  cases op with
  | sched p =>
    unfold step
    simp only [wp_bind, wp_get]
    split
    · rename_i hp
      unfold sched
      simp only [wp_bind]
      refine wp_mono (along_switchuvm p k) (fun _ k₁ h₁ => ?_) fun _ _ h => h
      simp only [wp_setProc, wp_pure]
      have hp₁ := (h₁.proc p).1.trans hp
      exact ⟨h₁.initproc.trans h.1,
        (h.alike h₁).2.run (f := fun q => { q with state := .RUNNING, chan := none })
          (by rw [hp₁]; simp) (Or.inr rfl) rfl rfl⟩
    · exact h
  | yield p =>
    refine hrun fun hp => ?_
    unfold yield
    simp only [wp_bind, wp_setProc, wp_pure]
    exact ⟨h.1, h.2.run (f := fun q => { q with state := .RUNNABLE }) (by rw [hp]; simp)
      (Or.inl rfl) rfl rfl⟩
  | fork p => exact hrun fun hp => lineage_fork h hp
  | sbrk p n => exact hrun fun _ => h.along (along_sbrk p n)
  | mmap p n => exact hrun fun _ => h.along (hT p n)
  | load p va => exact hrun fun hp => lineage_access h hp
  | store p va b => exact hrun fun hp => lineage_access h hp
  | exec p ip argv => exact hrun fun _ => h.along (along_exec p ip argv)
  | exit p =>
    refine hrun fun hp => ?_
    unfold exit
    simp only [wp_bind, wp_get]
    by_cases hi : k.initproc = some p
    · rw [if_pos hi]
      trivial
    · rw [if_neg hi]
      simp only [wp_set, wp_pure]
      exact h.exit hp hi
  | wait p => exact hrun fun hp => lineage_wait h hp
  | kalloc =>
    refine h.along (.bind (along_onPhys _) fun res => ?_)
    cases res with
    | none => exact .pure _
    | some f => exact .bind (.modify fun _ => .of_eq rfl rfl rfl) fun _ => .pure _
  | kfree f =>
    exact h.along (.get_bind fun _ => .ite (.bind (along_onPhys _) fun _ =>
      .bind (.modify fun _ => .of_eq rfl rfl rfl) fun _ => .pure _) (.pure _))

end Steps

section Runs

variable {κ : Type} [Kalloc κ] [Layout] [LawfulKalloc κ] {T : Tree κ} {k : Kernel κ} {p : ProcPtr}

theorem Booted.lineage {M : Machine} (h : Booted M k) : k.lineage initSlot := by
  refine ⟨h.initproc, ?_⟩
  rw [h.table, h.nextpid]
  constructor <;> grind

theorem attentive_of_reachable (hT : ∀ p n, Along Alike (T.mmap p n))
    {C : Kernel κ → Op → Result → Prop} (h : Reachable T C k) : k.Attentive := by
  have hall : k.lineage initSlot := h.induct (fun _ _ hb => hb.lineage) fun _ op _ _ ih _ hs =>
    of_ok (Q := fun _ k' => k'.lineage initSlot) (lineage_step hT ih op) hs
  exact hall.attentive

end Runs

end OsLabs.Xv6
