import OsLabs.Base.Ptable
import OsLabs.Xv6.Lifecycle

/-!
# Pids and parents

The invariant of the process table under interleaving, and what follows for pids and parents.

* `Inv` is the invariant: who builds a child owns its slot, and whoever has children is alive.
  `Similar` are the changes of the table that do not matter to it, and `Inv.slot` reduces the others
  to the one slot they change.
* `Inv.step` proves it kept, `inv_of_reachable` is the run lemma.
* `ptable_consistent`: pids are unique, parents are alive, and no pid is waited for twice.
-/

namespace OsLabs.Base

open Xv6

/-- `SLEEPING`, `RUNNABLE` or `RUNNING`. -/
def Alive (st : ProcState) : Prop := st = .SLEEPING ∨ st = .RUNNABLE ∨ st = .RUNNING

theorem Alive.ne_unused {st : ProcState} (h : Alive st) : st ≠ .UNUSED := by
  rcases h with rfl | rfl | rfl <;> exact ProcState.noConfusion

theorem Alive.ne_embryo {st : ProcState} (h : Alive st) : st ≠ .EMBRYO := by
  rcases h with rfl | rfl | rfl <;> exact ProcState.noConfusion

theorem Alive.ne_zombie {st : ProcState} (h : Alive st) : st ≠ .ZOMBIE := by
  rcases h with rfl | rfl | rfl <;> exact ProcState.noConfusion

theorem alive_running : Alive .RUNNING := Or.inr (Or.inr rfl)

theorem alive_runnable : Alive .RUNNABLE := Or.inr (Or.inl rfl)

theorem alive_sleeping : Alive .SLEEPING := Or.inl rfl

/-- A process at `c` is building the child in slot `np`. -/
def Pc.Builds (np : ProcPtr) : Pc → Prop
  | .kstack _ q => q = np
  | .copyuvm _ q => q = np
  | .publish _ q => q = np
  | _ => False

theorem Job.not_builds_next (j : Job) (np : ProcPtr) : ¬j.next.Builds np := by
  rcases j with _ | _ | n <;> exact id

/-- The invariant of the process table. -/
structure Inv (s : State) : Prop where
  /-- A pid in use has been handed out. -/
  pid_lt : ∀ q, (s.proc q).state ≠ .UNUSED → (s.proc q).pid < s.nextpid
  pid_inj : ∀ p q, (s.proc p).state ≠ .UNUSED → (s.proc q).state ≠ .UNUSED →
    (s.proc p).pid = (s.proc q).pid → p = q
  init_alive : Alive (s.proc s.initproc).state
  parent_alive : ∀ q, Alive (s.proc q).state ∨ (s.proc q).state = .ZOMBIE → q ≠ s.initproc →
    ∃ r, (s.proc q).parent = some r ∧ Alive (s.proc r).state
  /-- Who builds a child is alive, and the child is an `EMBRYO` of its own. -/
  builder : ∀ p np, (s.pc p).Builds np →
    Alive (s.proc p).state ∧ (s.proc np).state = .EMBRYO
  builder_inj : ∀ p p' np, (s.pc p).Builds np → (s.pc p').Builds np → p = p'
  adopted : ∀ p j np, s.pc p = .publish j np → (s.proc np).parent = some p
  waited_lt : ∀ w ∈ s.waited, w < s.nextpid
  waited_gone : ∀ w ∈ s.waited, ∀ q, (s.proc q).state ≠ .UNUSED → (s.proc q).pid ≠ w
  waited_nodup : s.waited.Nodup

/-- From `t` to `t'` only processes that stay alive change their state, and nobody changes pid or
parent. -/
def Similar (t t' : Table) : Prop :=
  ∀ q, (t' q).pid = (t q).pid ∧ (t' q).parent = (t q).parent ∧
    ((t' q).state = (t q).state ∨ Alive (t q).state ∧ Alive (t' q).state)

namespace Similar

variable {t t' : Table} {q : ProcPtr}

theorem refl (t : Table) : Similar t t := fun _ => ⟨rfl, rfl, Or.inl rfl⟩

theorem alive (h : Similar t t') : Alive (t' q).state ↔ Alive (t q).state := by
  rcases (h q).2.2 with e | ⟨e, e'⟩
  · rw [e]
  · exact iff_of_true e' e

/-- The states that are not alive stay what they are. -/
theorem state_eq (h : Similar t t') {st : ProcState} (hst : ¬Alive st) :
    (t' q).state = st ↔ (t q).state = st := by
  rcases (h q).2.2 with e | ⟨e, e'⟩
  · rw [e]
  · exact iff_of_false (fun hq => hst (hq ▸ e')) fun hq => hst (hq ▸ e)

/-- One slot is changed. -/
theorem set {p : ProcPtr} {f : Proc → Proc} (hpid : (f (t p)).pid = (t p).pid)
    (hparent : (f (t p)).parent = (t p).parent)
    (hstate : (f (t p)).state = (t p).state ∨ Alive (t p).state ∧ Alive (f (t p)).state) :
    Similar t (t.set p f) := by
  intro q
  rw [Table.set_apply]
  split
  · rename_i hq
    rw [hq]
    exact ⟨hpid, hparent, hstate⟩
  · exact ⟨rfl, rfl, Or.inl rfl⟩

end Similar

theorem not_alive_unused : ¬Alive .UNUSED := fun h => h.ne_unused rfl

theorem not_alive_embryo : ¬Alive .EMBRYO := fun h => h.ne_embryo rfl

theorem not_alive_zombie : ¬Alive .ZOMBIE := fun h => h.ne_zombie rfl

/-- Who builds a child after `p` has moved to `c`. -/
theorem State.builds_setPc {s : State} {p q np : ProcPtr} {c : Pc}
    (h : ((s.setPc p c).pc q).Builds np) :
    q = p ∧ c.Builds np ∨ q ≠ p ∧ (s.pc q).Builds np := by
  by_cases hq : q = p
  · rw [hq, s.setPc_self] at h
    exact Or.inl ⟨hq, h⟩
  · rw [s.setPc_of_ne hq] at h
    exact Or.inr ⟨hq, h⟩

/-- Who is about to publish a child after `p` has moved to `c`. -/
theorem State.publish_setPc {s : State} {p q np : ProcPtr} {c : Pc} {j : Job}
    (h : (s.setPc p c).pc q = .publish j np) :
    q = p ∧ c = .publish j np ∨ q ≠ p ∧ s.pc q = .publish j np := by
  by_cases hq : q = p
  · rw [hq, s.setPc_self] at h
    exact Or.inl ⟨hq, h⟩
  · rw [s.setPc_of_ne hq] at h
    exact Or.inr ⟨hq, h⟩

theorem Pc.builds_of_publish {c : Pc} {j : Job} {np : ProcPtr} (h : c = .publish j np) :
    c.Builds np := by
  rw [h]
  rfl

namespace Inv

variable {s s' : State}

/-- Steps that leave the slots similar and give nobody a new child to build. -/
theorem similar (h : Inv s) (ht : Similar s.proc s'.proc)
    (hpc : ∀ p, s'.pc p = s.pc p ∨ ∀ np, (s'.pc p).Builds np → (s.pc p).Builds np ∧
      ∀ j, s'.pc p ≠ .publish j np)
    (hn : s'.nextpid = s.nextpid) (hi : s'.initproc = s.initproc) (hw : s'.waited = s.waited) :
    Inv s' := by
  have hbuild : ∀ p np, (s'.pc p).Builds np → (s.pc p).Builds np := fun p np hb => by
    rcases hpc p with e | e
    · rwa [e] at hb
    · exact (e np hb).1
  have hused : ∀ {q}, (s'.proc q).state ≠ .UNUSED → (s.proc q).state ≠ .UNUSED :=
    fun hq => mt (ht.state_eq not_alive_unused).mpr hq
  refine ⟨fun q hq => ?_, fun p q hp hq he => ?_, ?_, fun q hq hqi => ?_, fun p np hb => ?_,
    fun p p' np hb hb' => h.builder_inj p p' np (hbuild p np hb) (hbuild p' np hb'),
    fun p j np hp => ?_, ?_, fun w hw' q hq => ?_, ?_⟩
  · rw [(ht q).1, hn]
    exact h.pid_lt q (hused hq)
  · rw [(ht p).1, (ht q).1] at he
    exact h.pid_inj p q (hused hp) (hused hq) he
  · rw [hi]
    exact ht.alive.mpr h.init_alive
  · rw [hi] at hqi
    rw [ht.alive, ht.state_eq not_alive_zombie] at hq
    obtain ⟨r, hr, ha⟩ := h.parent_alive q hq hqi
    exact ⟨r, (ht q).2.1.trans hr, ht.alive.mpr ha⟩
  · obtain ⟨ha, he⟩ := h.builder p np (hbuild p np hb)
    exact ⟨ht.alive.mpr ha, (ht.state_eq not_alive_embryo).mpr he⟩
  · rw [(ht np).2.1]
    rcases hpc p with e | e
    · exact h.adopted p j np (e ▸ hp)
    · exact absurd hp ((e np (by rw [hp]; rfl)).2 j)
  · rw [hw, hn]
    exact h.waited_lt
  · rw [hw] at hw'
    rw [(ht q).1]
    exact h.waited_gone w hw' q (hused hq)
  · rw [hw]
    exact h.waited_nodup

/-- A process that builds no child moves on. -/
theorem setPc (h : Inv s) {p : ProcPtr} {c : Pc} (hc : ∀ np, ¬c.Builds np) :
    Inv (s.setPc p c) := by
  refine h.similar (Similar.refl _) (fun q => ?_) rfl rfl rfl
  by_cases hq : q = p
  · rw [hq, s.setPc_self]
    exact Or.inr fun np hb => absurd hb (hc np)
  · exact Or.inl (s.setPc_of_ne hq c)

/-- A slot changes that stays alive, or something else than its state, pid and parent. -/
theorem setSlot (h : Inv s) {p : ProcPtr} {f : Proc → Proc} (hpid : (f (s.proc p)).pid = (s.proc p).pid)
    (hparent : (f (s.proc p)).parent = (s.proc p).parent)
    (hstate : (f (s.proc p)).state = (s.proc p).state ∨
      Alive (s.proc p).state ∧ Alive (f (s.proc p)).state) : Inv (s.setProc p f) :=
  h.similar (Similar.set hpid hparent hstate) (fun _ => Or.inl rfl) rfl rfl rfl

/-- The slot `np`, which is not alive, gets the contents `v`; the other slots stay. What is left to
show is about `np` alone. -/
theorem slot (h : Inv s) (np : ProcPtr) {v : Proc} (hnp : ¬Alive (s.proc np).state)
    (hproc : s'.proc = s.proc.set np fun _ => v) (hi : s'.initproc = s.initproc)
    (hn : s.nextpid ≤ s'.nextpid)
    (hpid : v.state ≠ .UNUSED → v.pid < s'.nextpid ∧ (∀ w ∈ s'.waited, v.pid ≠ w) ∧
      ∀ q, q ≠ np → (s.proc q).state ≠ .UNUSED → (s.proc q).pid ≠ v.pid)
    (hparent : Alive v.state ∨ v.state = .ZOMBIE →
      ∃ r, v.parent = some r ∧ Alive (s.proc r).state)
    (hpc : ∀ p q, (s'.pc p).Builds q → q ≠ np ∧ (s.pc p).Builds q ∨
      q = np ∧ v.state = .EMBRYO ∧ Alive (s.proc p).state)
    (hinj : ∀ p p', (s'.pc p).Builds np → (s'.pc p').Builds np → p = p')
    (hadopt : ∀ p j q, s'.pc p = .publish j q → q ≠ np ∧ s.pc p = .publish j q ∨
      q = np ∧ v.parent = some p)
    (hw : ∀ w ∈ s'.waited, w < s'.nextpid ∧
      ∀ q, q ≠ np → (s.proc q).state ≠ .UNUSED → (s.proc q).pid ≠ w)
    (hnd : s'.waited.Nodup) : Inv s' := by
  have hself : s'.proc np = v := by rw [hproc, Table.set_self]
  have hother : ∀ {q}, q ≠ np → s'.proc q = s.proc q := fun hq => by
    rw [hproc, Table.set_ne _ _ hq]
  have halive : ∀ {q}, Alive (s.proc q).state → q ≠ np ∧ Alive (s'.proc q).state := fun ha => by
    have hq : _ ≠ np := fun e => hnp (e ▸ ha)
    exact ⟨hq, by rwa [hother hq]⟩
  refine ⟨fun q hq => ?_, fun p q hp hq he => ?_, ?_, fun q hq hqi => ?_, fun p q hb => ?_,
    fun p p' q hb hb' => ?_, fun p j q hp => ?_, fun w hw' => (hw w hw').1, fun w hw' q hq => ?_, hnd⟩
  · by_cases hqn : q = np
    · rw [hqn, hself] at hq ⊢
      exact (hpid hq).1
    · rw [hother hqn] at hq ⊢
      exact lt_of_lt_of_le (h.pid_lt q hq) hn
  · by_cases hpn : p = np
    · by_cases hqn : q = np
      · rw [hpn, hqn]
      · rw [hpn, hself] at hp he
        rw [hother hqn] at hq he
        exact absurd he.symm ((hpid hp).2.2 q hqn hq)
    · by_cases hqn : q = np
      · rw [hqn, hself] at hq he
        rw [hother hpn] at hp he
        exact absurd he ((hpid hq).2.2 p hpn hp)
      · rw [hother hpn] at hp he
        rw [hother hqn] at hq he
        exact h.pid_inj p q hp hq he
  · rw [hi]
    exact (halive h.init_alive).2
  · by_cases hqn : q = np
    · rw [hqn, hself] at hq ⊢
      obtain ⟨r, hr, ha⟩ := hparent hq
      exact ⟨r, hr, (halive ha).2⟩
    · rw [hother hqn] at hq ⊢
      obtain ⟨r, hr, ha⟩ := h.parent_alive q hq (hi ▸ hqi)
      exact ⟨r, hr, (halive ha).2⟩
  · rcases hpc p q hb with ⟨hqn, hb⟩ | ⟨rfl, hv, ha⟩
    · obtain ⟨ha, he⟩ := h.builder p q hb
      exact ⟨(halive ha).2, by rwa [hother hqn]⟩
    · exact ⟨(halive ha).2, by rwa [hself]⟩
  · by_cases hqn : q = np
    · exact hinj p p' (hqn ▸ hb) (hqn ▸ hb')
    · rcases hpc p q hb with ⟨-, hb⟩ | ⟨hq, -⟩
      · rcases hpc p' q hb' with ⟨-, hb'⟩ | ⟨hq, -⟩
        · exact h.builder_inj p p' q hb hb'
        · exact absurd hq hqn
      · exact absurd hq hqn
  · rcases hadopt p j q hp with ⟨hqn, hp⟩ | ⟨rfl, hv⟩
    · rw [hother hqn]
      exact h.adopted p j q hp
    · rwa [hself]
  · by_cases hqn : q = np
    · rw [hqn, hself] at hq ⊢
      exact (hpid hq).2.1 w hw'
    · rw [hother hqn] at hq ⊢
      exact (hw w hw').2 q hqn hq

/-- `allocproc` takes an unused slot. -/
theorem alloc (h : Inv s) {p np : ProcPtr} (j : Job) (hp : (s.proc p).state = .RUNNING)
    (hnp : (s.proc np).state = .UNUSED) :
    Inv { (s.setProc np fun q => { q with state := .EMBRYO, pid := s.nextpid }).setPc p
      (.kstack j np) with
        nextpid := s.nextpid + 1
        hit := Function.update s.hit np false } := by
  have hnb : ∀ {q r}, (s.pc q).Builds r → r ≠ np := fun hb e => by
    have := (h.builder _ _ hb).2
    rw [e, hnp] at this
    exact ProcState.noConfusion this
  refine h.slot np (by rw [hnp]; exact not_alive_unused) rfl rfl (Nat.le_succ _)
    (fun _ => ⟨Nat.lt_succ_self _, fun w hw => ?_, fun q _ hq => ?_⟩)
    (fun hv => ?_) (fun q r hb => ?_) (fun q q' hb hb' => ?_) (fun q i r hq => ?_)
    (fun w hw => ⟨Nat.lt_succ_of_lt (h.waited_lt w hw), fun q _ hq => h.waited_gone w hw q hq⟩)
    h.waited_nodup
  · exact Nat.ne_of_gt (h.waited_lt w hw)
  · exact Nat.ne_of_lt (h.pid_lt q hq)
  · rcases hv with hv | hv
    · exact absurd hv not_alive_embryo
    · exact ProcState.noConfusion hv
  · rcases State.builds_setPc hb with ⟨rfl, hnew⟩ | ⟨-, hb⟩
    · exact Or.inr ⟨Eq.symm hnew, rfl, by rw [hp]; exact alive_running⟩
    · exact Or.inl ⟨hnb hb, hb⟩
  · rcases State.builds_setPc hb with ⟨rfl, -⟩ | ⟨-, hb⟩
    · rcases State.builds_setPc hb' with ⟨rfl, -⟩ | ⟨-, hb'⟩
      · rfl
      · exact absurd rfl (hnb hb')
    · exact absurd rfl (hnb hb)
  · rcases State.publish_setPc hq with ⟨-, hq⟩ | ⟨-, hq⟩
    · exact Pc.noConfusion hq
    · exact Or.inl ⟨hnb (Pc.builds_of_publish hq), hq⟩

/-- The slot of a child that `p` builds changes, and stays an `EMBRYO`, becomes unused again, or
becomes a process. -/
theorem built (h : Inv s) {p np : ProcPtr} {c : Pc} {f : Proc → Proc}
    (hb : (s.pc p).Builds np) (hpid : (f (s.proc np)).pid = (s.proc np).pid)
    (hv : (f (s.proc np)).state = .UNUSED ∨ (f (s.proc np)).state = .EMBRYO ∨
      Alive (f (s.proc np)).state ∧ (f (s.proc np)).parent = some p)
    (hc : ∀ r, c.Builds r → r = np ∧ (f (s.proc np)).state = .EMBRYO)
    (hpub : ∀ j r, c = .publish j r → (f (s.proc np)).parent = some p) :
    Inv ((s.setProc np f).setPc p c) := by
  obtain ⟨ha, he⟩ := h.builder p np hb
  have hnp : (s.proc np).state ≠ .UNUSED := by
    rw [he]
    exact ProcState.noConfusion
  have hnb : ∀ {q r}, q ≠ p → (s.pc q).Builds r → r ≠ np := fun hq hr e =>
    hq (h.builder_inj _ _ _ (e ▸ hr) hb)
  refine h.slot np (by rw [he]; exact not_alive_embryo) rfl rfl (le_refl _)
    (fun _ => ⟨?_, fun w hw => ?_, fun q hqn hq hpq => ?_⟩)
    (fun hst => ?_) (fun q r hr => ?_) (fun q q' hr hr' => ?_) (fun q i r hq => ?_)
    (fun w hw => ⟨h.waited_lt w hw, fun q _ hq => h.waited_gone w hw q hq⟩)
    h.waited_nodup
  · rw [hpid]
    exact h.pid_lt np hnp
  · rw [hpid]
    exact h.waited_gone w hw np hnp
  · rw [hpid] at hpq
    exact hqn (h.pid_inj q np hq hnp hpq)
  · rcases hv with hv | hv | ⟨-, hv⟩
    · rw [hv] at hst
      rcases hst with hst | hst
      · exact absurd hst not_alive_unused
      · exact ProcState.noConfusion hst
    · rw [hv] at hst
      rcases hst with hst | hst
      · exact absurd hst not_alive_embryo
      · exact ProcState.noConfusion hst
    · exact ⟨p, hv, ha⟩
  · rcases State.builds_setPc hr with ⟨rfl, hnew⟩ | ⟨hq, hr⟩
    · exact Or.inr ⟨(hc r hnew).1, (hc r hnew).2, ha⟩
    · exact Or.inl ⟨hnb hq hr, hr⟩
  · rcases State.builds_setPc hr with ⟨rfl, -⟩ | ⟨hq, hr⟩
    · rcases State.builds_setPc hr' with ⟨rfl, -⟩ | ⟨hq', hr'⟩
      · rfl
      · exact absurd rfl (hnb hq' hr')
    · exact absurd rfl (hnb hq hr)
  · rcases State.publish_setPc hq with ⟨rfl, hnew⟩ | ⟨hqp, hq⟩
    · exact Or.inr ⟨(hc r (Pc.builds_of_publish hnew)).1, hpub i r hnew⟩
    · exact Or.inl ⟨hnb hqp (Pc.builds_of_publish hq), hq⟩

/-- `wait` reaps a zombie. -/
theorem reap (h : Inv s) {p q : ProcPtr}
    (hq : (s.proc q).state = .ZOMBIE) :
    Inv { s.setPc p .user with
      proc := s.proc.reap q
      waited := (s.proc q).pid :: s.waited } := by
  have hused : (s.proc q).state ≠ .UNUSED := by
    rw [hq]
    exact ProcState.noConfusion
  have hnb : ∀ {r i}, (s.pc r).Builds i → i ≠ q := fun hb e => by
    have := (h.builder _ _ hb).2
    rw [e, hq] at this
    exact ProcState.noConfusion this
  refine h.slot q (by rw [hq]; exact not_alive_zombie) rfl rfl (le_refl _)
    (fun hv => absurd rfl hv) (fun hv => ?_) (fun r i hb => ?_) (fun r r' hb hb' => ?_)
    (fun r j i hr => ?_) (fun w hw => ?_) ?_
  · rcases hv with hv | hv
    · exact absurd hv not_alive_unused
    · exact ProcState.noConfusion hv
  · rcases State.builds_setPc hb with ⟨-, hb⟩ | ⟨-, hb⟩
    · exact hb.elim
    · exact Or.inl ⟨hnb hb, hb⟩
  · rcases State.builds_setPc hb with ⟨-, hb⟩ | ⟨-, hb⟩
    · exact hb.elim
    · exact absurd rfl (hnb hb)
  · rcases State.publish_setPc hr with ⟨-, hr⟩ | ⟨-, hr⟩
    · exact Pc.noConfusion hr
    · exact Or.inl ⟨hnb (Pc.builds_of_publish hr), hr⟩
  · rcases List.mem_cons.mp hw with rfl | hw
    · exact ⟨h.pid_lt q hused, fun r hrq hr e => hrq (h.pid_inj r q hr hused e)⟩
    · exact ⟨h.waited_lt w hw, fun r _ hr => h.waited_gone w hw r hr⟩
  · exact List.nodup_cons.mpr ⟨fun hw => h.waited_gone _ hw q hused rfl, h.waited_nodup⟩

/-- `exit` gives the children to `initproc` and makes `p` a zombie. -/
theorem exit (h : Inv s) {p : ProcPtr} (hp : (s.proc p).state = .RUNNING)
    (hpc : s.pc p = .user) (hi : p ≠ s.initproc) :
    Inv { s with proc := s.proc.exit p (some s.initproc) } := by
  have hused : (s.proc p).state ≠ .UNUSED := by
    rw [hp]
    exact ProcState.noConfusion
  have hunused := fun q => Table.exit_unused (some s.initproc) hused q
  have halive : ∀ {q}, q ≠ p → Alive (s.proc q).state →
      Alive (s.proc.exit p (some s.initproc) q).state := fun hq ha => by
    rcases Table.exit_state_ne s.proc p (some s.initproc) hq with e | ⟨-, e⟩
    · rwa [e]
    · rw [e]
      exact alive_runnable
  refine ⟨fun q hq => ?_, fun q r hq hr he => ?_, halive (Ne.symm hi) h.init_alive,
    fun q hq hqi => ?_, fun q np hb => ?_, h.builder_inj, fun q j np hq => ?_, h.waited_lt,
    fun w hw q hq => ?_, h.waited_nodup⟩
  · rw [Table.exit_pid]
    exact h.pid_lt q (mt (hunused q).mpr hq)
  · rw [Table.exit_pid, Table.exit_pid] at he
    exact h.pid_inj q r (mt (hunused q).mpr hq) (mt (hunused r).mpr hr) he
  · have hq : Alive (s.proc q).state ∨ (s.proc q).state = .ZOMBIE := by
      by_cases hqp : q = p
      · rw [hqp, hp]
        exact Or.inl alive_running
      · rcases Table.exit_state_ne s.proc p (some s.initproc) hqp with e | ⟨e, -⟩
        · rwa [e] at hq
        · rw [e]
          exact Or.inl alive_sleeping
    by_cases hparent : (s.proc q).parent = some p
    · have hip : some s.initproc ≠ some p := fun e => hi (Option.some.inj e).symm
      exact ⟨s.initproc, Table.exit_parent_of_eq _ _ _ hip hparent,
        halive (Ne.symm hi) h.init_alive⟩
    · obtain ⟨r, hr, ha⟩ := h.parent_alive q hq hqi
      refine ⟨r, (Table.exit_parent_of_ne _ _ _ hparent).trans hr, halive (fun e => ?_) ha⟩
      exact hparent (e ▸ hr)
  · have hqp : q ≠ p := fun e => by
      rw [e, hpc] at hb
      exact hb
    obtain ⟨ha, he⟩ := h.builder q np hb
    refine ⟨halive hqp ha, ?_⟩
    have hnp : np ≠ p := fun e => by
      rw [e, hp] at he
      exact ProcState.noConfusion he
    rcases Table.exit_state_ne s.proc p (some s.initproc) hnp with e | ⟨e, -⟩
    · exact e.trans he
    · rw [he] at e
      exact ProcState.noConfusion e
  · have hparent := h.adopted q j np hq
    have hqp : q ≠ p := fun e => by
      rw [e, hpc] at hq
      exact Pc.noConfusion hq
    rw [Table.exit_parent_of_ne, hparent]
    rw [hparent]
    exact fun e => hqp (Option.some.inj e)
  · rw [Table.exit_pid]
    exact h.waited_gone w hw q (mt (hunused q).mpr hq)

/-- The invariant is kept by every step. -/
theorem step (h : Inv s) {e : Event} (hs : Step s e s') : Inv s' := by
  cases hs with
  | sched hst => exact h.setSlot rfl rfl (Or.inr ⟨by rw [hst]; exact alive_runnable, alive_running⟩)
  | yield hst => exact h.setSlot rfl rfl (Or.inr ⟨by rw [hst]; exact alive_running, alive_runnable⟩)
  | sleep hst => exact h.setSlot rfl rfl (Or.inr ⟨by rw [hst]; exact alive_running, alive_sleeping⟩)
  | wakeup hst => exact h.setSlot rfl rfl (Or.inr ⟨by rw [hst]; exact alive_sleeping, alive_runnable⟩)
  | fork => exact h.setPc fun _ => id
  | spawn _ _ n => exact h.setPc (Job.not_builds_next _)
  | noslot => exact h.setPc (Job.not_builds_next _)
  | @alloc p np j hst hpc hf =>
    exact h.alloc j hst (of_decide_eq_true (Table.first_some hf))
  | @nostack p np j hst hpc =>
    exact h.built (by rw [hpc]; rfl) rfl (Or.inl rfl)
      (fun r hr => absurd hr (j.not_builds_next r)) fun i r hr =>
        absurd (Pc.builds_of_publish hr) (j.not_builds_next r)
  | @stack p np j hst hpc =>
    refine h.similar (Similar.refl _) (fun q => ?_) rfl rfl rfl
    by_cases hq : q = p
    · rw [hq, s.setPc_self, hpc]
      exact Or.inr fun r hr => ⟨hr, fun i => Pc.noConfusion⟩
    · exact Or.inl (s.setPc_of_ne hq _)
  | @nocopy p np j hst hpc =>
    exact h.built (by rw [hpc]; rfl) rfl (Or.inl rfl)
      (fun r hr => absurd hr (j.not_builds_next r)) fun i r hr =>
        absurd (Pc.builds_of_publish hr) (j.not_builds_next r)
  | @copy p np j hst hpc =>
    have hb : (s.pc p).Builds np := by
      rw [hpc]
      rfl
    have he := (h.builder p np hb).2
    exact h.built hb rfl (Or.inr (Or.inl he)) (fun r hr => ⟨Eq.symm hr, he⟩) fun _ _ _ => rfl
  | @publish p np j hst hpc =>
    have hborn : Inv ((s.setProc np fun q => { q with state := .RUNNABLE }).setPc p j.next) :=
      h.built (by rw [hpc]; rfl) rfl (Or.inr (Or.inr ⟨alive_runnable, h.adopted p j np hpc⟩))
        (fun r hr => absurd hr (j.not_builds_next r)) fun i r hr =>
          absurd (Pc.builds_of_publish hr) (j.not_builds_next r)
    exact (hborn.setPc (p := np) (c := .user) fun _ => id).similar (Similar.refl _)
      (fun _ => Or.inl rfl) rfl rfl rfl
  | exit hst hpc hi => exact h.exit hst hpc hi
  | reap hst hpc hf => exact h.reap (Table.zombieOf_iff.mp (Table.first_some hf)).2
  | nochild => exact h.setPc fun _ => id
  | @waitSleep p hst hpc hf hn =>
    have hslept : Inv (s.setProc p fun q => { q with chan := some p, state := .SLEEPING }) :=
      h.setSlot rfl rfl (Or.inr ⟨by rw [hst]; exact alive_running, alive_sleeping⟩)
    exact hslept.setPc fun _ => id
  | @kill p q hst hpc pid hf =>
    have hkilled : Similar s.proc (s.proc.set q killed) := by
      refine Similar.set rfl rfl ?_
      by_cases hq : (s.proc q).state = .SLEEPING
      · exact Or.inr ⟨by rw [hq]; exact alive_sleeping, by
          simp only [killed, if_pos hq]
          exact alive_runnable⟩
      · exact Or.inl (by simp only [killed, if_neg hq])
    exact h.similar hkilled (fun _ => Or.inl rfl) rfl rfl rfl
  | nokill => exact h

end Inv

theorem userinit_slot0 : userinit.proc slot0 =
    { pid := 1, sz := PGSIZE, state := .RUNNABLE } := by
  simp only [userinit, Table.set_self]

theorem userinit_of_ne {q : ProcPtr} (h : q ≠ slot0) : userinit.proc q = {} := by
  simp only [userinit, Table.set_ne _ _ h]

theorem userinit_used {q : ProcPtr} (h : (userinit.proc q).state ≠ .UNUSED) : q = slot0 := by
  by_contra hq
  rw [userinit_of_ne hq] at h
  exact h rfl

theorem inv_userinit : Inv userinit where
  pid_lt q hq := by
    rw [userinit_used hq, userinit_slot0]
    exact Nat.one_lt_two
  pid_inj p q hp hq _ := by rw [userinit_used hp, userinit_used hq]
  init_alive := by
    change Alive (userinit.proc slot0).state
    rw [userinit_slot0]
    exact alive_runnable
  parent_alive q hq hqi := by
    refine absurd (userinit_used ?_) hqi
    rcases hq with hq | hq
    · exact hq.ne_unused
    · rw [hq]
      exact ProcState.noConfusion
  builder _ _ h := h.elim
  builder_inj _ _ _ h := h.elim
  adopted _ _ _ h := Pc.noConfusion h
  waited_lt _ h := absurd h List.not_mem_nil
  waited_gone _ h := absurd h List.not_mem_nil
  waited_nodup := List.nodup_nil

theorem inv_of_reachable {C : State → Event → Prop} {s : State} (h : Reachable C s) : Inv s := by
  induction h with
  | init => exact inv_userinit
  | step _ hs _ ih => exact ih.step hs

/-- In every state reached from `userinit` by any interleaving: no two slots in use have the same
pid, the parent of every process other than `initproc` is alive, and a pid that `fork` or `spawn`
has given out is returned by `wait` at most once. -/
theorem ptable_consistent {C : State → Event → Prop} {s : State} (h : Reachable C s) :
    (∀ p q, p ≠ q → (s.proc p).state ≠ .UNUSED → (s.proc q).state ≠ .UNUSED →
      (s.proc p).pid ≠ (s.proc q).pid) ∧
    (∀ q, Alive (s.proc q).state ∨ (s.proc q).state = .ZOMBIE → q ≠ s.initproc →
      ∃ r, (s.proc q).parent = some r ∧ Alive (s.proc r).state) ∧
    ∀ pid ∈ s.created, s.waited.count pid ≤ 1 := by
  have hinv := inv_of_reachable h
  refine ⟨fun p q hpq hp hq he => hpq (hinv.pid_inj p q hp hq he), hinv.parent_alive,
    fun pid _ => ?_⟩
  exact List.nodup_iff_count_le_one.mp hinv.waited_nodup pid

/-! ## A run -/

/-- Any step is allowed. -/
def anyStep : State → Event → Prop := fun _ _ => True

section Run

variable {C : State → Event → Prop} (hC : ∀ s, C s .tau)

include hC

/-- A running process gets as far in `fork` as the publication of the child. -/
theorem fork_run {s : State} {p np : ProcPtr} (h : Reachable C s)
    (hp : (s.proc p).state = .RUNNING) (hpc : s.pc p = .user)
    (hf : s.proc.first (·.state = .UNUSED) = some np) (hpid : s.nextpid < INT_MAX) :
    ∃ s', Reachable C s' ∧ (s'.proc p).state = .RUNNING ∧ s'.pc p = .publish .fork np ∧
      (s'.proc np).killed = (s.proc np).killed ∧ s'.hit np = false := by
  have hne : p ≠ np := fun e => by
    have hnp : (s.proc np).state = .UNUSED := of_decide_eq_true (Table.first_some hf)
    rw [← e, hp] at hnp
    exact ProcState.noConfusion hnp
  have h₁ := h.step (.fork hp hpc) (hC _)
  have h₂ := h₁.step (.alloc hp (s.setPc_self p _) hf hpid) (hC _)
  have hp₂ : (s.proc.set np (fun q => { q with state := .EMBRYO, pid := s.nextpid }) p).state =
      .RUNNING := by rwa [Table.set_ne _ _ hne]
  have h₃ := h₂.step (.stack hp₂ (State.setPc_self _ p _)) (hC _)
  have h₄ := h₃.step (.copy hp₂ (State.setPc_self _ p _)) (hC _)
  refine ⟨_, h₄, ?_, State.setPc_self _ p _, ?_, Function.update_self ..⟩
  · change (Table.set _ np _ p).state = _
    rw [Table.set_ne _ _ hne]
    exact hp₂
  · change (Table.set _ np _ np).killed = _
    rw [Table.set_self]
    change (Table.set _ np _ np).killed = _
    rw [Table.set_self]
    rfl

/-- The first process runs. -/
theorem init_run : ∃ s, Reachable C s ∧ (s.proc slot0).state = .RUNNING ∧
    (s.proc slot0).pid = 1 ∧ s.pc slot0 = .user ∧ s.nextpid < INT_MAX ∧
    ∀ q, q ≠ slot0 → s.proc q = {} := by
  have hst : (userinit.proc slot0).state = .RUNNABLE := by rw [userinit_slot0]
  refine ⟨_, Reachable.init.step (.sched hst) (hC _), ?_, ?_, rfl, by decide, fun q hq => ?_⟩
  · rw [State.setProc_self]
  · rw [State.setProc_self, userinit_slot0]
  · rw [State.setProc_of_ne _ hq, userinit_of_ne hq]

end Run

/-- The state after a `fork` by the first process is one of those. -/
theorem ptable_consistent_forked : ∃ s : State, Reachable anyStep s ∧ s.created ≠ [] ∧
    (∀ q, Alive (s.proc q).state ∨ (s.proc q).state = .ZOMBIE → q ≠ s.initproc →
      ∃ r, (s.proc q).parent = some r ∧ Alive (s.proc r).state) ∧
    ∀ pid ∈ s.created, s.waited.count pid ≤ 1 := by
  have hC : ∀ s, anyStep s .tau := fun _ => trivial
  obtain ⟨s₀, h₀, hst, -, hpc, hpid, hrest⟩ := init_run hC
  cases hf : s₀.proc.first (·.state = .UNUSED) with
  | none =>
    have hfull := Table.first_none hf ⟨1, by decide⟩
    rw [hrest _ (by decide)] at hfull
    exact absurd hfull (by decide)
  | some np =>
    obtain ⟨s₁, h₁, hst₁, hpc₁, -, -⟩ := fork_run hC h₀ hst hpc hf hpid
    have h₂ := h₁.step (.publish hst₁ hpc₁) trivial
    exact ⟨_, h₂, List.cons_ne_nil _ _, (ptable_consistent h₂).2⟩

end OsLabs.Base
